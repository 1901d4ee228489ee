import BeEasy.FileTransmit.SenderTurn

/-!
# FileTransmit — Sender result

What the value `fileSend` returns says about the transfer, for every source
file, every reply and every outcome of the calls. `ret` holds -1 or 0 in
some steps and the raw status word of an ack in others, and `quit` returns
it as it is.
-/

namespace BeEasy.FileTransmit

open CVerif

/-- A history up to some data frame, all of it acknowledged. -/
def AckedSoFar (history : List (Request × Reply)) : Prop :=
  ∃ attr chunks, history = (.start attr, .status SUCCESS)
    :: List.map (fun chunk => (.data chunk, .status SUCCESS)) chunks

/-- START, the data frames and END were all acknowledged with SUCCESS. -/
def Confirmed (history : List (Request × Reply)) : Prop :=
  ∃ before, AckedSoFar before ∧ history = before ++ [(.finish, .status SUCCESS)]

/-- A request that was not confirmed makes the result negative, and a
non-negative result means that all were. -/
def SendTruthful : Progress SendState Int Fault → Prop
  | .running _ => True
  | .returned t r => ((∃ x ∈ t.history, x.2 ≠ .status SUCCESS) → r < 0) ∧
      (0 ≤ r → Confirmed t.history)
  | .faulted _ => False

/-- The word that answers START or END is SUCCESS or has its sign bit set. -/
def SignedRefusal (host : Host) (s : SendState) (ev : SendEvent) : Prop :=
  match s.pc with
  | .reqAck _ _ | .endAck =>
      ∀ word, replyTo host ev = .status word → word = SUCCESS ∨ word.toInt < 0
  | _ => True

/-- While the sender runs, everything it asked for before was confirmed. -/
def ConfirmedSoFar (s : SendState) : Prop :=
  match s.pc with
  | .setup | .reqAck _ _ => s.history = []
  | _ => AckedSoFar s.history

section Result

variable {host : Host} {s : SendState} {ev : SendEvent}

theorem AckedSoFar.concat {history : List (Request × Reply)} (h : AckedSoFar history)
    (chunk : List Byte) : AckedSoFar (history ++ [(.data chunk, .status SUCCESS)]) := by
  obtain ⟨attr, chunks, rfl⟩ := h
  exact ⟨attr, chunks ++ [chunk], by simp⟩

theorem AckedSoFar.all {history : List (Request × Reply)} (h : AckedSoFar history) :
    ∀ x ∈ history, x.2 = .status SUCCESS := by
  obtain ⟨attr, chunks, rfl⟩ := h
  intro x hx
  rcases List.mem_cons.mp hx with rfl | hx
  · rfl
  · obtain ⟨chunk, _, rfl⟩ := List.mem_map.mp hx
    rfl

/-- -1 is always an honest answer. -/
theorem sendTruthful_neg (t : SendState) : SendTruthful (.returned t (-1)) :=
  ⟨fun _ => by decide, fun h => absurd h (by decide)⟩

/-- Returning the refusing word is honest when the word is negative. -/
theorem sendTruthful_refused_iff {t : SendState} {request : Request}
    (hr : replyTo host ev ≠ .status SUCCESS) :
    SendTruthful (.returned (t.record request (replyTo host ev)) (replyTo host ev).ret) ↔
      ∀ word, replyTo host ev = .status word → word = SUCCESS ∨ word.toInt < 0 := by
  constructor
  · intro ⟨hneg, _⟩ word hword
    right
    have := hneg ⟨(request, replyTo host ev), by simp [SendState.record], hr⟩
    rw [hword] at this
    exact this
  · intro hsign
    have hneg : (replyTo host ev).ret < 0 := by
      cases hreply : replyTo host ev with
      | notSent => decide
      | notReceived => decide
      | status word =>
          rcases hsign word hreply with rfl | hlt
          · exact absurd hreply hr
          · exact hlt
    exact ⟨fun _ => hneg, fun h => absurd h (Int.not_le.mpr hneg)⟩

/-- A turn that sends a request reads no reply. -/
theorem Asks.signedRefusal {t : SendState} {request : Request} {pc : SendPc}
    (hask : Asks s ev t request pc) : SignedRefusal host s ev := by
  cases hask with
  | start hpc => simp [SignedRefusal, hpc]
  | data hpc => simp [SignedRefusal, hpc]
  | finish hpc => simp [SignedRefusal, hpc]

theorem signedRefusal_success (h : replyTo host ev = .status SUCCESS) :
    SignedRefusal host s ev := by
  have hword : ∀ word, replyTo host ev = .status word → word = SUCCESS ∨ word.toInt < 0 := by
    intro word hword
    cases h.symm.trans hword
    exact .inl rfl
  unfold SignedRefusal
  split
  · exact hword
  · exact hword
  · trivial

theorem ConfirmedSoFar.signedRefusal_iff (h : ConfirmedSoFar s)
    {p : Progress SendState Int Fault} (hp : Turn host s ev p) :
    SendTruthful p ↔ SignedRefusal host s ev := by
  cases hp with
  | noSetup hpc hfail => exact iff_of_true (sendTruthful_neg s) (by simp [SignedRefusal, hpc])
  | issued hask hsend => exact iff_of_true trivial hask.signedRefusal
  | notIssued hask hsend => exact iff_of_true (sendTruthful_neg _) hask.signedRefusal
  | startAcked hpc hr => exact iff_of_true trivial (signedRefusal_success hr)
  | startRefused hpc hr =>
      rw [sendTruthful_refused_iff hr]
      simp only [SignedRefusal, hpc]
  | chunkAcked hpc hr => exact iff_of_true trivial (by simp [SignedRefusal, hpc])
  | chunkRefused hpc hr =>
      exact iff_of_true (sendTruthful_neg _) (by simp [SignedRefusal, hpc])
  | finished hpc =>
      have hsofar : AckedSoFar s.history := by simpa [ConfirmedSoFar, hpc] using h
      -- the reply to END decides: everything before it was confirmed
      by_cases hr : replyTo host ev = .status SUCCESS
      · refine iff_of_true ?_ (signedRefusal_success hr)
        rw [hr]
        refine ⟨?_, fun _ => ⟨s.history, hsofar, rfl⟩⟩
        intro ⟨x, hx, hbad⟩
        rcases List.mem_append.mp hx with hx | hx
        · exact absurd (hsofar.all x hx) hbad
        · exact absurd (by rw [List.mem_singleton.mp hx]) hbad
      · rw [sendTruthful_refused_iff hr]
        simp only [SignedRefusal, hpc]

theorem ConfirmedSoFar.turn (h : ConfirmedSoFar s) {t : SendState}
    (hp : Turn host s ev (.running t)) : ConfirmedSoFar t := by
  cases hp with
  | issued hask hsend =>
      cases hask with
      | start hpc =>
          have hnil : s.history = [] := by simpa [ConfirmedSoFar, hpc] using h
          exact hnil
      | data hpc =>
          have hsofar : AckedSoFar s.history := by simpa [ConfirmedSoFar, hpc] using h
          exact hsofar
      | finish hpc =>
          have hsofar : AckedSoFar s.history := by simpa [ConfirmedSoFar, hpc] using h
          exact hsofar
  | startAcked hpc hr =>
      have hnil : s.history = [] := by simpa [ConfirmedSoFar, hpc] using h
      exact ⟨_, [], by rw [SendState.record, hnil]; rfl⟩
  | chunkAcked hpc hr =>
      have hsofar : AckedSoFar s.history := by simpa [ConfirmedSoFar, hpc] using h
      exact hsofar.concat _

theorem confirmedSoFar_init (filename filepath : List Byte) (toAddr fromAddr : Mac) :
    ConfirmedSoFar (SendState.init filename filepath toAddr fromAddr) := rfl

end Result

theorem send_turn_iff (host : Host) (s : SendState) (ev : SendEvent) (h : ConfirmedSoFar s) :
    SendTruthful (fileSendTurn host s ev) ↔ SignedRefusal host s ev :=
  h.signedRefusal_iff (fileSendTurn_spec host s ev)

/-- **`fileSend` tells a confirmed transfer from a refused one exactly when
every refusal of START and END is a negative word.** FAIL, 0xEE, is not. -/
theorem send_truthful_iff (host : Host) (filename filepath : List Byte) (toAddr fromAddr : Mac)
    (evs : List SendEvent) :
    AfterEveryTurn (fileSendTurn host) SendTruthful
        (SendState.init filename filepath toAddr fromAddr) evs ↔
      BeforeEveryTurn (fileSendTurn host) (SignedRefusal host)
        (SendState.init filename filepath toAddr fromAddr) evs := by
  refine afterEveryTurn_iff ?_ (send_turn_iff host) (confirmedSoFar_init ..) evs
  intro s ev t h _ hrun
  exact h.turn (hrun ▸ fileSendTurn_spec host s ev)

/-- The file is open and the START is sent. -/
def startSent : SendEvent where
  getLocalMacAddr := some blankMac
  getMacFromArp := true
  macAton := some blankMac
  fopen := some []
  ftell := 0
  fread := none
  sendto := true
  recvfrom := none
  stack := blankFrame
  padding := 0
  dstpathLast := 0
  dstfileNameLast := 0

/-- FAIL comes back. -/
def failBack : SendEvent :=
  { startSent with recvfrom := some (framed (beBytes 4 FAIL.toNat)) }

/-- `fileSend` returns 238 for a START that was refused. -/
theorem refused_start_returned :
    ¬ AfterEveryTurn (fileSendTurn .little) SendTruthful
      (SendState.init [] [] blankMac blankMac) [startSent, failBack] := by
  have hreply : replyTo .little failBack = .status FAIL := replyTo_of_sent rfl
  refine not_afterEveryTurn_later (fileSendTurn_started rfl rfl rfl rfl rfl rfl) ?_
  refine not_afterEveryTurn (send_turn_iff .little) ?_ ?_ []
  · exact Eq.refl ([] : List (Request × Reply))
  intro hsigned
  rcases hsigned FAIL hreply with h | h
  · exact absurd h (by decide)
  · exact absurd h (by decide)

end BeEasy.FileTransmit
