import BeEasy.CVerif.EdgeTriggered
import BeEasy.CVerif.EventLoop
import BeEasy.CVerif.Bytes
import Mathlib.Logic.Function.Basic

/-!
# Epoll — Server

`epoll_server.c`: the echo server, the clients that connect to it, and the
kernel between them, as one transition system. What the clients do is an
action of theirs at any time; the server's actions are the system calls of
its loop, one turn of the `for` loop at a time up to the `write`, which is
an action of its own. A call of the server that fails of its own accord is
an argument of the action.

The descriptors the server does not open here, and the numbers that
`listen_fd` and `epoll_fd` got, are the `Descriptors`. The kernel gives
`accept` the least descriptor in use by nobody, below the limit set with
`setrlimit`. Whether registering a connection that already has something to
read queues an event is left open (`onAdd`).
-/

namespace BeEasy.Epoll

open CVerif

def MAXEPOLL : Nat := 10000
def MAXLINE : Nat := 1024

abbrev Fd := Nat

/-- The descriptors open when the loop starts: `listen_fd`, `epoll_fd` and
those the process came with. -/
structure Descriptors where
  listenFd : Fd
  epollFd : Fd
  inherited : List Fd
  listen_lt : listenFd < MAXEPOLL
  epoll_lt : epollFd < MAXEPOLL
  listen_ne_epoll : listenFd ≠ epollFd

/-- A client and its connection, as both ends see it. -/
structure Client where
  /-- Everything the client sent. -/
  sent : List Byte := []
  /-- What of it arrived and was not read by the server yet. -/
  unread : List Byte := []
  /-- Everything the client got back. -/
  echoed : List Byte := []
  /-- The client sends no more: once all is read, `read` returns 0. -/
  finished : Bool := false
  /-- The client is gone: what is written to it is lost. -/
  gone : Bool := false

/-- Where the server is: in its loop, between a `read` of `nread` bytes from
`fd` and the `write`, or out. -/
inductive Pc where
  | loop
  | write (fd : Fd) (nread : Nat)
  | exited
  deriving DecidableEq

structure World where
  /-- The clients, by number; `connected` many have connected so far. -/
  client : Nat → Client
  connected : Nat
  /-- Connections completed and not accepted. -/
  queue : List Nat
  /-- `listen_fd` is open. -/
  listening : Bool
  /-- The accepted connections still open, by descriptor. -/
  table : List (Fd × Nat)
  /-- The ready list of the epoll instance, and `evs` from `i` on. -/
  events : Events Fd
  curFds : Int
  buf : List Byte
  pc : Pc

/-- The server enters its loop. -/
def World.init (buf : List Byte) : World where
  client _ := {}
  connected := 0
  queue := []
  listening := true
  table := []
  events := Events.empty
  curFds := 1
  buf := buf
  pc := .loop

inductive Action where
  | connect
  | send (c : Nat) (bytes : List Byte)
  /-- The client closes its end; `entirely` if it will not receive either. -/
  | close (c : Nat) (entirely : Bool)
  /-- `epoll_wait` returns `n` events, or fails. -/
  | wait (n : Nat)
  | waitFails
  /-- One turn of the loop over `evs`. -/
  | serve (fails : Bool)
  /-- The `write` at the end of it; it kills a process that ignores no
  `SIGPIPE`. -/
  | write (killed : Bool)

namespace World

variable (d : Descriptors) (onAdd : Bool) (s : World)

/-! ## The kernel -/

/-- The connection behind a descriptor. -/
def clientOf (fd : Fd) : Option Nat := s.table.lookup fd

/-- The descriptor of a client's connection. -/
def fdOf (c : Nat) : Option Fd := (s.table.find? (·.2 = c)).map Prod.fst

/-- Something happens on a client's connection. -/
def raise (c : Nat) : Events Fd :=
  match s.fdOf c with
  | some fd => s.events.notify fd
  | none => s.events

def inUse (fd : Fd) : Bool :=
  fd ∈ d.inherited ∨ fd = d.epollFd ∨ (s.listening = true ∧ fd = d.listenFd)
    ∨ fd ∈ s.table.map Prod.fst

/-- The descriptor the kernel gives out next, if the limit leaves one. -/
def freshFd : Option Fd := (List.range MAXEPOLL).find? fun fd => !s.inUse d fd

/-- A client's data arrives as long as the server has not closed. -/
def attached (c : Nat) : Bool := c ∈ s.queue ∨ c ∈ s.table.map Prod.snd

def update (c : Nat) (new : Client) : Nat → Client := Function.update s.client c new

theorem update_self (c : Nat) (new : Client) : s.update c new c = new := by
  rw [update, Function.update_self]

theorem update_of_ne {c c' : Nat} (new : Client) (h : c' ≠ c) :
    s.update c new c' = s.client c' := by
  rw [update, Function.update_of_ne h]

/-! ## The clients -/

def connect : World :=
  { s with
    client := s.update s.connected {}
    connected := s.connected + 1
    queue := s.queue ++ [s.connected]
    events := s.events.notify d.listenFd }

def send (c : Nat) (bytes : List Byte) : World :=
  let old := s.client c
  { s with
    client := s.update c { old with
      sent := old.sent ++ bytes
      unread := if s.attached c then old.unread ++ bytes else old.unread }
    events := s.raise c }

def close (c : Nat) (entirely : Bool) : World :=
  let old := s.client c
  { s with
    client := s.update c { old with finished := true, gone := old.gone || entirely }
    events := s.raise c }

/-! ## The server -/

def exit : World := { s with pc := .exited }

def wait (n : Nat) : World := { s with events := s.events.wait n }

/-- `read` on the connection would not block. -/
def Readable (c : Nat) : Prop := (s.client c).unread ≠ [] ∨ (s.client c).finished = true

instance (c : Nat) : Decidable (s.Readable c) := inferInstanceAs (Decidable (_ ∨ _))

/-- `epoll_ctl(EPOLL_CTL_ADD)`, on the turn of `listen_fd`. -/
def register (c : Nat) (connFd : Fd) : Events Fd :=
  if onAdd = true ∧ s.Readable c then s.events.next.notify connFd else s.events.next

/-- `accept`, `epoll_ctl` and `++cur_fds`. -/
def accept (c : Nat) (queue : List Nat) (connFd : Fd) : World :=
  { s with
    queue := queue
    table := (connFd, c) :: s.table
    events := s.register onAdd c connFd
    curFds := s.curFds + 1 }

/-- `nread <= 0`: `close`, an `epoll_ctl(EPOLL_CTL_DEL)` without effect on a
closed descriptor, and `--cur_fds`. -/
def hangUp (fd : Fd) : World :=
  { s with
    listening := s.listening && fd ≠ d.listenFd
    table := s.table.filter (·.1 ≠ fd)
    events := s.events.next.forget fd
    curFds := s.curFds - 1 }

/-- `read(evs[i].data.fd, buf, sizeof(buf))` with something to read. -/
def read (fd : Fd) (c : Nat) : World :=
  let old := s.client c
  let nread := min MAXLINE old.unread.length
  { s with
    client := s.update c { old with unread := old.unread.drop nread }
    events := s.events.next
    buf := old.unread.take nread ++ s.buf.drop nread
    pc := .write fd nread }

/-- `write(evs[i].data.fd, buf, nread)`, all of it. -/
def echo (c : Nat) (nread : Nat) : World :=
  let old := s.client c
  { s with
    client := s.update c { old with echoed := old.echoed ++ s.buf.take nread }
    pc := .loop }

/-- The `write` that reaches nobody. -/
def lose : World := { s with pc := .loop }

/-- The branch of the loop that accepts. -/
def acceptTurn (fails : Bool) : World :=
  match s.queue, s.freshFd d with
  | c :: queue, some connFd => if fails then s.exit else s.accept onAdd c queue connFd
  | _, _ => s.exit

/-- The rest of the loop up to the `write`. A `read` with nothing to read
blocks: it is no turn until there is. -/
def readTurn (fd : Fd) (fails : Bool) : Option World :=
  match s.clientOf fd with
  | none => some (s.hangUp d fd)
  | some c =>
      if fails then some (s.hangUp d fd)
      else if (s.client c).unread ≠ [] then some (s.read fd c)
      else if (s.client c).finished then some (s.hangUp d fd)
      else none

/-- `evs[i].data.fd == listen_fd && cur_fds < MAXEPOLL`. -/
def Accepts (fd : Fd) : Prop := fd = d.listenFd ∧ s.curFds < MAXEPOLL

instance (fd : Fd) : Decidable (s.Accepts d fd) := inferInstanceAs (Decidable (_ ∧ _))

def serveTurn (fails : Bool) : Option World :=
  match s.pc, s.events.batch with
  | .loop, fd :: _ =>
      if s.Accepts d fd then some (s.acceptTurn d onAdd fails) else s.readTurn d fd fails
  | _, _ => none

def writeTurn (killed : Bool) : Option World :=
  match s.pc with
  | .write fd nread =>
      match s.clientOf fd with
      | none => some s.lose
      | some c =>
          if (s.client c).gone then some (if killed then s.exit else s.lose)
          else if killed then none
          else some (s.echo c nread)
  | _ => none

/-- The server is about to block in `epoll_wait`. -/
def Waits : Prop := s.pc = .loop ∧ s.events.batch = []

instance : Decidable s.Waits := inferInstanceAs (Decidable (_ ∧ _))

/-- `epoll_wait(epoll_fd, evs, cur_fds, -1)`, which fails when asked for no
event. -/
def waitTurn (n : Nat) : Option World :=
  if s.Waits then
    if s.curFds ≤ 0 then some s.exit
    else if 0 < n ∧ n ≤ s.events.ready.length ∧ (n : Int) ≤ s.curFds then some (s.wait n)
    else none
  else none

/-! ## Whose record changes -/

section Records

variable {c c' : Nat} {fd : Fd} {bytes : List Byte} {entirely : Bool} {nread : Nat}

theorem client_connect_self : (s.connect d).client s.connected = {} :=
  s.update_self _ _

theorem client_connect_of_ne (h : c ≠ s.connected) : (s.connect d).client c = s.client c :=
  s.update_of_ne _ h

theorem client_send_self :
    (s.send c bytes).client c =
      { s.client c with
        sent := (s.client c).sent ++ bytes
        unread := if s.attached c then (s.client c).unread ++ bytes else (s.client c).unread } :=
  s.update_self _ _

theorem client_send_of_ne (h : c' ≠ c) : (s.send c bytes).client c' = s.client c' :=
  s.update_of_ne _ h

theorem client_close_self :
    (s.close c entirely).client c =
      { s.client c with finished := true, gone := (s.client c).gone || entirely } :=
  s.update_self _ _

theorem client_close_of_ne (h : c' ≠ c) : (s.close c entirely).client c' = s.client c' :=
  s.update_of_ne _ h

theorem client_read_self :
    (s.read fd c).client c =
      { s.client c with
        unread := (s.client c).unread.drop (min MAXLINE (s.client c).unread.length) } :=
  s.update_self _ _

theorem client_read_of_ne (h : c' ≠ c) : (s.read fd c).client c' = s.client c' :=
  s.update_of_ne _ h

theorem client_echo_self :
    (s.echo c nread).client c =
      { s.client c with echoed := (s.client c).echoed ++ s.buf.take nread } :=
  s.update_self _ _

theorem client_echo_of_ne (h : c' ≠ c) : (s.echo c nread).client c' = s.client c' :=
  s.update_of_ne _ h

/-- A client that closes keeps what is on the way to the server, ... -/
theorem unread_close : ((s.close c entirely).client c').unread = (s.client c').unread := by
  by_cases h : c' = c
  · subst h
    rw [client_close_self]
  · rw [s.client_close_of_ne h]

/-- ... and so does a `write`. -/
theorem unread_echo : ((s.echo c nread).client c').unread = (s.client c').unread := by
  by_cases h : c' = c
  · subst h
    rw [client_echo_self]
  · rw [s.client_echo_of_ne h]

end Records

/-- One action, where it is possible. -/
def step : Action → Option World
  | .connect => if s.listening ∧ s.pc ≠ .exited then some (s.connect d) else none
  | .send c bytes =>
      if c < s.connected ∧ (s.client c).finished = false ∧ bytes ≠ [] then some (s.send c bytes)
      else none
  | .close c entirely =>
      if c < s.connected ∧ (s.client c).gone = false then some (s.close c entirely) else none
  | .wait n => s.waitTurn n
  | .waitFails => if s.Waits then some s.exit else none
  | .serve fails => s.serveTurn d onAdd fails
  | .write killed => s.writeTurn killed

end World

/-! ## What an action does -/

/-- The outcomes of an action, with what has to hold for each. -/
inductive Moves (d : Descriptors) (onAdd : Bool) (s : World) : Action → World → Prop
  | connect (hpc : s.pc ≠ .exited) : Moves d onAdd s .connect (s.connect d)
  | send {c : Nat} {bytes : List Byte} (hc : c < s.connected)
      (hmore : (s.client c).finished = false) (hbytes : bytes ≠ []) :
      Moves d onAdd s (.send c bytes) (s.send c bytes)
  | close {c : Nat} {entirely : Bool} (hc : c < s.connected) (hgone : (s.client c).gone = false) :
      Moves d onAdd s (.close c entirely) (s.close c entirely)
  | wait {n : Nat} (hwaits : s.Waits) (hn : 0 < n) (hready : n ≤ s.events.ready.length)
      (hroom : (n : Int) ≤ s.curFds) : Moves d onAdd s (.wait n) (s.wait n)
  | exit {a : Action} : Moves d onAdd s a s.exit
  | accept {c : Nat} {queue : List Nat} {connFd : Fd} {rest : List Fd} (hpc : s.pc = .loop)
      (hbatch : s.events.batch = d.listenFd :: rest) (hqueue : s.queue = c :: queue)
      (hfresh : s.freshFd d = some connFd) :
      Moves d onAdd s (.serve false) (s.accept onAdd c queue connFd)
  | hangUp {fd : Fd} {rest : List Fd} {fails : Bool} (hpc : s.pc = .loop)
      (hbatch : s.events.batch = fd :: rest) (hbranch : ¬ s.Accepts d fd) :
      Moves d onAdd s (.serve fails) (s.hangUp d fd)
  | read {fd : Fd} {rest : List Fd} {c : Nat} (hpc : s.pc = .loop)
      (hbatch : s.events.batch = fd :: rest) (hbranch : ¬ s.Accepts d fd)
      (hclient : s.clientOf fd = some c) (hunread : (s.client c).unread ≠ []) :
      Moves d onAdd s (.serve false) (s.read fd c)
  | echo {fd : Fd} {nread c : Nat} (hpc : s.pc = .write fd nread)
      (hclient : s.clientOf fd = some c) (hgone : (s.client c).gone = false) :
      Moves d onAdd s (.write false) (s.echo c nread)
  | lose {fd : Fd} {nread : Nat} {killed : Bool} (hpc : s.pc = .write fd nread)
      (hlost : ∀ c, s.clientOf fd = some c → (s.client c).gone = true) :
      Moves d onAdd s (.write killed) s.lose

variable {d : Descriptors} {onAdd : Bool} {s t : World}

theorem acceptTurn_moves {fails : Bool} {rest : List Fd} (hpc : s.pc = .loop)
    (hbatch : s.events.batch = d.listenFd :: rest) :
    Moves d onAdd s (.serve fails) (s.acceptTurn d onAdd fails) := by
  unfold World.acceptTurn
  cases hqueue : s.queue with
  | nil => exact .exit
  | cons c queue =>
      cases hfresh : s.freshFd d with
      | none => exact .exit
      | some connFd =>
          cases fails with
          | true => exact .exit
          | false => exact .accept hpc hbatch hqueue hfresh

theorem readTurn_moves {fd : Fd} {rest : List Fd} {fails : Bool} (hpc : s.pc = .loop)
    (hbatch : s.events.batch = fd :: rest) (hbranch : ¬ s.Accepts d fd)
    (h : s.readTurn d fd fails = some t) : Moves d onAdd s (.serve fails) t := by
  unfold World.readTurn at h
  cases hclient : s.clientOf fd with
  | none =>
      rw [hclient] at h
      cases h
      exact .hangUp hpc hbatch hbranch
  | some c =>
      simp only [hclient] at h
      cases fails with
      | true =>
          cases h
          exact .hangUp hpc hbatch hbranch
      | false =>
          by_cases hunread : (s.client c).unread ≠ []
          · simp only [Bool.false_eq_true, if_false, if_pos hunread, Option.some.injEq] at h
            subst h
            exact .read hpc hbatch hbranch hclient hunread
          · simp only [Bool.false_eq_true, if_false, if_neg hunread] at h
            cases hfin : (s.client c).finished with
            | true =>
                rw [hfin] at h
                cases h
                exact .hangUp hpc hbatch hbranch
            | false =>
                rw [hfin] at h
                cases h

theorem serveTurn_moves {fails : Bool} (h : s.serveTurn d onAdd fails = some t) :
    Moves d onAdd s (.serve fails) t := by
  unfold World.serveTurn at h
  cases hpc : s.pc with
  | exited => simp [hpc] at h
  | write fd nread => simp [hpc] at h
  | loop =>
      cases hbatch : s.events.batch with
      | nil => simp [hpc, hbatch] at h
      | cons fd rest =>
          simp only [hpc, hbatch] at h
          by_cases hbranch : s.Accepts d fd
          · rw [if_pos hbranch] at h
            cases h
            exact acceptTurn_moves hpc (hbranch.1 ▸ hbatch)
          · rw [if_neg hbranch] at h
            exact readTurn_moves hpc hbatch hbranch h

theorem writeTurn_moves {killed : Bool} (h : s.writeTurn killed = some t) :
    Moves d onAdd s (.write killed) t := by
  unfold World.writeTurn at h
  cases hpc : s.pc with
  | exited => simp [hpc] at h
  | loop => simp [hpc] at h
  | write fd nread =>
      cases hclient : s.clientOf fd with
      | none =>
          simp only [hpc, hclient] at h
          cases h
          refine .lose hpc ?_
          intro c hc
          rw [hclient] at hc
          cases hc
      | some c =>
          simp only [hpc, hclient] at h
          cases hgone : (s.client c).gone <;> rw [hgone] at h <;> cases killed
          · cases h
            exact .echo hpc hclient hgone
          · cases h
          · cases h
            refine .lose hpc ?_
            intro c' hc'
            rw [hclient] at hc'
            cases hc'
            exact hgone
          · cases h
            exact .exit

theorem waitTurn_moves {n : Nat} (h : s.waitTurn n = some t) : Moves d onAdd s (.wait n) t := by
  unfold World.waitTurn at h
  by_cases hwaits : s.Waits
  · rw [if_pos hwaits] at h
    by_cases hcur : s.curFds ≤ 0
    · rw [if_pos hcur] at h
      cases h
      exact .exit
    · rw [if_neg hcur] at h
      by_cases hn : 0 < n ∧ n ≤ s.events.ready.length ∧ (n : Int) ≤ s.curFds
      · rw [if_pos hn] at h
        cases h
        exact .wait hwaits hn.1 hn.2.1 hn.2.2
      · rw [if_neg hn] at h
        cases h
  · rw [if_neg hwaits] at h
    cases h

/-- **What one action can do**: every outcome of `step` is one of `Moves`. -/
theorem step_moves {a : Action} (h : s.step d onAdd a = some t) : Moves d onAdd s a t := by
  cases a with
  | connect =>
      obtain ⟨hguard, ht⟩ := Option.ite_none_right_eq_some.mp h
      cases ht
      exact .connect hguard.2
  | send c bytes =>
      obtain ⟨⟨hc, hmore, hbytes⟩, ht⟩ := Option.ite_none_right_eq_some.mp h
      cases ht
      exact .send hc hmore hbytes
  | close c entirely =>
      obtain ⟨⟨hc, hgone⟩, ht⟩ := Option.ite_none_right_eq_some.mp h
      cases ht
      exact .close hc hgone
  | wait n => exact waitTurn_moves h
  | waitFails =>
      obtain ⟨-, ht⟩ := Option.ite_none_right_eq_some.mp h
      cases ht
      exact .exit
  | serve fails => exact serveTurn_moves h
  | write killed => exact writeTurn_moves h

/-! ## Runs -/

/-- Some action takes one world to the other. -/
def Step (d : Descriptors) (onAdd : Bool) (s t : World) : Prop :=
  ∃ a, s.step d onAdd a = some t

/-- The worlds the server can get into. -/
def Reachable (d : Descriptors) (onAdd : Bool) (s : World) : Prop :=
  ∃ buf, Relation.ReflTransGen (Step d onAdd) (World.init buf) s

/-- The world a list of actions leads to, as far as they are possible. -/
def run (d : Descriptors) (onAdd : Bool) : World → List Action → World
  | s, [] => s
  | s, a :: actions => run d onAdd ((s.step d onAdd a).getD s) actions

theorem run_reaches (s : World) (actions : List Action) :
    Relation.ReflTransGen (Step d onAdd) s (run d onAdd s actions) := by
  induction actions generalizing s with
  | nil => exact .refl
  | cons a actions ih =>
      cases h : s.step d onAdd a with
      | none =>
          rw [run, h]
          exact ih s
      | some t =>
          rw [run, h]
          exact .head ⟨a, h⟩ (ih t)

/-- What holds when the loop is entered and is kept by every action holds in
every world the server can get into. -/
theorem invariant_of_moves {I : World → Prop} (init : ∀ buf, I (World.init buf))
    (keeps : ∀ s a t, I s → Moves d onAdd s a t → I t) {s : World}
    (h : Reachable d onAdd s) : I s := by
  obtain ⟨buf, run⟩ := h
  refine invariant_reachable ?_ run (init buf)
  intro s t hs ⟨a, hstep⟩
  exact keeps s a t hs (step_moves hstep)

end BeEasy.Epoll
