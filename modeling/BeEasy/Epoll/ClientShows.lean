import BeEasy.Epoll.Client

/-!
# Epoll — what the client shows

After each successful `read` the client writes the whole of `recv`, however
many bytes were read into it, and looks for its end with `strlen`. So it shows
what it received only where a read fills the buffer, and only a NUL among the
bytes keeps `strlen` inside.
-/

namespace BeEasy.EpollClient

open CVerif

/-- The bytes shown of what the server sent, and the newlines behind them. -/
def Output.data : Output → List Byte
  | .written bytes => bytes
  | .newline => [CVerif.newline]
  | _ => []

def shown (outputs : List Output) : List Byte := outputs.flatMap Output.data

/-- What was received was shown, a newline behind each read. -/
def ShowsReceived (s : ClientState) : Prop :=
  shown s.stdout = s.received.flatMap fun bytes => bytes ++ [CVerif.newline]

/-- No access outside `recv`, and what was received was shown. -/
def Shows : Progress ClientState Exit Violation → Prop
  | .running s => ShowsReceived s
  | .returned s _ => ShowsReceived s
  | .faulted v => v.buffer ≠ .recv ∧ ShowsReceived v.state

/-- If bytes are read from the connection, they fill the buffer, with a NUL
among them. -/
def FillsBuffer : Event → Prop
  | .ready (some (.chunk c)) _ => c.bytes.length = MAXLINE ∧ (0 : Byte) ∈ c.bytes
  | _ => True

section Turns

variable {s : ClientState} {e : Event} {bytes recv : List Byte}

theorem shown_append (outputs outputs' : List Output) :
    shown (outputs ++ outputs') = shown outputs ++ shown outputs' := List.flatMap_append

theorem showsReceived_init (input : List Byte) : ShowsReceived (.init input) := rfl

/-- Messages are no data. -/
theorem showsReceived_print {outputs : List Output} (h : shown outputs = []) :
    ShowsReceived (s.print outputs) ↔ ShowsReceived s := by
  rw [ShowsReceived, ClientState.print, shown_append, h, List.append_nil]
  rfl

/-- The input has no say in what was shown. -/
theorem shows_onInput : Shows (onInput s) ↔ ShowsReceived s := by
  rw [onInput]
  cases fgets MAXLINE s.input with
  | none => exact showsReceived_print rfl
  | some result =>
      obtain ⟨str, rest⟩ := result
      cases hsend : cutLast str with
      | error fault =>
          simp only [hsend]
          exact and_iff_right Buffer.noConfusion
      | ok send =>
          simp only [hsend]
          by_cases hquit : send = [113]
          · rw [if_pos hquit]
            exact showsReceived_print rfl
          · rw [if_neg hquit]
            exact showsReceived_print (s := { s with input := rest }) rfl

/-- After a read, what is shown is right only if it is what was read. -/
theorem showsReceived_read (hs : ShowsReceived s) :
    ShowsReceived ({ s.print [.getFromServer] with received := s.received ++ [bytes] }.print
      [.written recv, .newline]) ↔ recv = bytes := by
  have hdata : shown [.written recv, .newline] = recv ++ [CVerif.newline] := by
    simp [shown, Output.data]
  have hgot : shown (s.stdout ++ [.getFromServer]) = shown s.stdout := by
    rw [shown_append]
    exact List.append_nil _
  show shown ((s.stdout ++ [.getFromServer]) ++ [.written recv, .newline])
    = (s.received ++ [bytes]).flatMap _ ↔ _
  rw [shown_append, hgot, hdata, hs, List.flatMap_append, List.append_cancel_left_eq]
  simp

theorem shows_onConnection_chunk (hs : ShowsReceived s) (c : Chunk) :
    Shows (onConnection s (some (.chunk c))) ↔
      c.bytes.length = MAXLINE ∧ (0 : Byte) ∈ c.bytes := by
  rw [onConnection]
  simp only [showRecv_eq c.fits]
  by_cases hnul : c.bytes.length < MAXLINE ∨ (0 : Byte) ∈ c.bytes
  · rw [if_pos hnul]
    have hfull : c.bytes ++ List.replicate (MAXLINE - c.bytes.length) 0 = c.bytes ↔
        MAXLINE - c.bytes.length = 0 := by
      rw [List.append_right_eq_self, List.replicate_eq_nil_iff]
    refine (showsReceived_read hs).trans (hfull.trans ?_)
    have hfits := c.fits
    constructor
    · intro h
      exact ⟨by omega, hnul.resolve_left (by omega)⟩
    · intro ⟨h, _⟩
      omega
  · rw [if_neg hnul]
    exact iff_of_false (fun h => h.1 rfl) fun h => hnul (.inr h.2)

/-- **One turn** shows what it should exactly when the read, if any, fills the
buffer. -/
theorem shows_turn (hs : ShowsReceived s) (e : Event) :
    Shows (sendAndRecvTurn s e) ↔ FillsBuffer e := by
  cases e with
  | failed => exact iff_of_true ((showsReceived_print rfl).mpr hs) trivial
  | ready conn input =>
      have hconn : Shows (onConnection s conn) ↔ FillsBuffer (.ready conn input) := by
        cases conn with
        | none => exact iff_of_true hs trivial
        | some received =>
            cases received with
            | chunk c => exact shows_onConnection_chunk hs c
            | closed => exact iff_of_true ((showsReceived_print rfl).mpr hs) trivial
            | error => exact iff_of_true ((showsReceived_print rfl).mpr hs) trivial
      rw [← hconn, sendAndRecvTurn]
      cases onConnection s conn with
      | running t =>
          cases input with
          | false => exact Iff.rfl
          | true => exact shows_onInput
      | returned t r => exact Iff.rfl
      | faulted v => exact Iff.rfl

end Turns

/-- **What is received is shown, from inside the buffer, exactly as long as
every read fills it** and reads a NUL. -/
theorem shows_iff (input : List Byte) (es : List Event) :
    AfterEveryTurn sendAndRecvTurn Shows (.init input) es ↔
      BeforeEveryTurn sendAndRecvTurn (fun _ e => FillsBuffer e) (.init input) es := by
  refine afterEveryTurn_iff (I := ShowsReceived) ?_ (fun s e hs => shows_turn hs e)
    (showsReceived_init input) es
  intro s e t hs hP ht
  have hshows := (shows_turn hs e).mpr hP
  rwa [ht] at hshows

/-- The letter `A`, and the same as often as `recv` has room for it. -/
def letter : Chunk where
  bytes := [65]
  nonempty := Nat.le_refl 1
  fits := by decide

def fullOfLetters : Chunk where
  bytes := List.replicate MAXLINE 65
  nonempty := by
    rw [List.length_replicate]
    decide
  fits := Nat.le_of_eq List.length_replicate

/-- With the letter all of `recv` is shown, and without a NUL `strlen` leaves
it. -/
theorem letters_not_shown :
    ¬AfterEveryTurn sendAndRecvTurn Shows (.init []) [.ready (some (.chunk letter)) false] ∧
      ¬AfterEveryTurn sendAndRecvTurn Shows (.init [])
        [.ready (some (.chunk fullOfLetters)) false] := by
  have hagree : ∀ s e, ShowsReceived s → (Shows (sendAndRecvTurn s e) ↔ FillsBuffer e) :=
    fun s e hs => shows_turn hs e
  constructor
  · refine not_afterEveryTurn hagree (showsReceived_init []) ?_ []
    exact fun h => absurd h.1 (by decide)
  · refine not_afterEveryTurn hagree (showsReceived_init []) ?_ []
    exact fun h => absurd (List.eq_of_mem_replicate h.2) (by decide)

end BeEasy.EpollClient
