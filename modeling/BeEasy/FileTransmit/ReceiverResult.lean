import BeEasy.FileTransmit.ReceiverAcks

/-!
# FileTransmit — Receiver result

What the value `fileRecv` returns says about the transfer. The announced
size is stored by `createFile` and never compared with what arrived; the
history keeps both, so that a complete transfer can be told from a broken
one.
-/

namespace BeEasy.FileTransmit

open CVerif

/-- The size a START frame announces. -/
def announcedSize (host : Host) (frame : EthernetFrame) : BitVec 64 :=
  ntohll host (loadLong host (field frame.data 8 8))

def announce (host : Host) (size : Option (BitVec 64)) (x : Exchange) : Option (BitVec 64) :=
  match x.effect with
  | .fopen true => some (announcedSize host x.frame)
  | .fopen false => none
  | _ => size

/-- The size announced by the last START, if it created its file. -/
def announced (host : Host) (history : List Exchange) : Option (BitVec 64) :=
  history.foldl (announce host) none

theorem announced_concat (host : Host) (history : List Exchange) (x : Exchange) :
    announced host (history ++ [x]) = announce host (announced host history) x := by
  rw [announced, List.foldl_append]
  rfl

/-- An END was flushed to the file of a START, and the bytes accepted since
that START are as many as it announced. -/
def Complete (host : Host) (history : List Exchange) : Prop :=
  ∃ before x stream size, history = before ++ [x] ∧
    frameStatus host x.frame = END ∧ x.effect = .fflush (some stream) true ∧
    announced host before = some size ∧ (accepted host before).length = size.toNat

/-- A create, checksum, write or flush failure. -/
def Failed (host : Host) (x : Exchange) : Prop :=
  x.effect = .fopen false ∨
  (frameStatus host x.frame = ING ∧ dataSum host x.frame ≠ sumBytes (payload host x.frame)) ∨
  (∃ stream bytes, x.effect = .fwrite stream bytes ∧
    bytes.length < (dataLen host x.frame).toNat) ∨
  ∃ stream, x.effect = .fflush stream false

/-- The last frame failed, or it was an END before all announced bytes had
arrived. -/
def CutShort (host : Host) (history : List Exchange) : Prop :=
  ∃ before x, history = before ++ [x] ∧
    (Failed host x ∨ frameStatus host x.frame = END ∧
      ∃ size, announced host before = some size ∧ (accepted host before).length < size.toNat)

/-- A non-negative result means a complete transfer, and a transfer that was
cut short has a negative one. -/
def ResultTruthful (host : Host) : Progress RecvState Int Fault → Prop
  | .running _ => True
  | .returned t r => (0 ≤ r → Complete host t.history) ∧ (CutShort host t.history → r < 0)
  | .faulted _ => False

/-- What the frame asks for is done in full. -/
structure Succeeds (host : Host) (s : RecvState) (ev : RecvEvent) (frame : EthernetFrame) :
    Prop where
  start : frameStatus host frame = START → ev.fopen = true
  data : frameStatus host frame = ING → (dataLen host frame).toNat ≤ TRANSMITSIZE ∧
    dataSum host frame = sumBytes (payload host frame) ∧ s.fp ≠ none ∧
    (dataLen host frame).toNat ≤ ev.fwrite
  finish : frameStatus host frame = END → ev.fflush = true ∧
    ∃ file, s.fp = some file ∧ file.content.length = s.fileSize.toNat

/-- An open file holds what was accepted for the size announced. -/
structure Tallied (host : Host) (s : RecvState) : Prop where
  size : s.fp ≠ none → announced host s.history = some s.fileSize
  bytes : ∀ file, s.fp = some file → file.content = accepted host s.history

section Result

variable {host : Host} {s : RecvState} {ev : RecvEvent} {frame : EthernetFrame}

theorem complete_concat {history : List Exchange} {x : Exchange} :
    Complete host (history ++ [x]) ↔ frameStatus host x.frame = END ∧
      ∃ stream size, x.effect = .fflush (some stream) true ∧
        announced host history = some size ∧ (accepted host history).length = size.toNat := by
  constructor
  · intro ⟨before, y, stream, size, heq, hst, heff, hann, hlen⟩
    obtain ⟨rfl, hy⟩ := List.append_inj' heq rfl
    cases hy
    exact ⟨hst, stream, size, heff, hann, hlen⟩
  · intro ⟨hst, stream, size, heff, hann, hlen⟩
    exact ⟨history, x, stream, size, rfl, hst, heff, hann, hlen⟩

theorem cutShort_concat {history : List Exchange} {x : Exchange} :
    CutShort host (history ++ [x]) ↔ Failed host x ∨ frameStatus host x.frame = END ∧
      ∃ size, announced host history = some size ∧
        (accepted host history).length < size.toNat := by
  constructor
  · intro ⟨before, y, heq, hcut⟩
    obtain ⟨rfl, hy⟩ := List.append_inj' heq rfl
    cases hy
    exact hcut
  · intro hcut
    exact ⟨history, x, rfl, hcut⟩

/-- `fileRecv` returns 0 after a failure. -/
theorem not_resultTruthful_failed {t : RecvState} {effect : Effect} {stat : BitVec 32}
    (h : Failed host ⟨t.frame, effect, stat⟩) (sendto : Bool) (fclose : Nat) :
    ¬ ResultTruthful host (.returned ((t.reply host effect stat sendto).quit fclose) 0) := by
  intro ⟨_, hcut⟩
  have hneg := hcut (by
    rw [RecvState.quit_history, RecvState.reply_history]
    exact cutShort_concat.mpr (.inl h))
  omega

theorem not_failed_flushed {stream : Option Nat} {stat : BitVec 32}
    (hst : frameStatus host frame = END) : ¬ Failed host ⟨frame, .fflush stream true, stat⟩ := by
  rintro (heff | ⟨hing, _⟩ | ⟨_, _, heff, _⟩ | ⟨_, heff⟩)
  · cases heff
  · exact absurd (hst.symm.trans hing) END_ne_ING
  · cases heff
  · cases heff

/-- An END that was flushed is a success exactly at the announced size. -/
theorem resultTruthful_flushed_iff (h : Tallied host s) (hst : frameStatus host frame = END)
    (sendto : Bool) (flushed fclose : Nat) :
    ResultTruthful host (.returned (((flushFile { s with frame } true flushed).state.reply host
      (.fflush (s.fp.map OutFile.id) true) SUCCESS sendto).quit fclose) 0)
      ↔ ∃ file, s.fp = some file ∧ file.content.length = s.fileSize.toNat := by
  simp only [ResultTruthful, RecvState.quit_history, RecvState.reply_history, flushFile_history,
    flushFile_frame, complete_concat, cutShort_concat]
  cases hfp : s.fp with
  | none =>
      -- what was flushed is NULL, which is no START's file
      refine iff_of_false ?_ (by simp)
      intro ⟨hcomplete, _⟩
      obtain ⟨_, stream, _, heff, _⟩ := hcomplete (Int.le_refl 0)
      cases heff
  | some file =>
      have hsize := h.size (by simp [hfp])
      have hbytes := h.bytes file hfp
      constructor
      · intro ⟨hcomplete, _⟩
        obtain ⟨_, _, size, _, hann, hlen⟩ := hcomplete (Int.le_refl 0)
        cases hsize.symm.trans hann
        exact ⟨file, rfl, hbytes ▸ hlen⟩
      · intro ⟨file', hfile, hlen⟩
        cases hfile
        rw [hbytes] at hlen
        refine ⟨fun _ => ⟨hst, file.id, s.fileSize, rfl, hsize, hlen⟩, ?_⟩
        rintro (hfail | ⟨_, size, hann, hlt⟩)
        · exact absurd hfail (not_failed_flushed hst)
        · cases hsize.symm.trans hann
          omega

theorem Tallied.succeeds_iff (h : Tallied host s) {p : Progress RecvState Int Fault}
    (hp : Pass host s ev p) :
    ResultTruthful host p ↔ ∀ frame, received host s ev = some frame → Succeeds host s ev frame := by
  cases hp with
  | notReceived hr =>
      refine iff_of_true ⟨fun hneg => ?_, fun _ => ?_⟩ (by simp [hr])
      · omega
      · omega
  | created hr hst hopen =>
      rw [forall_received hr]
      refine iff_of_true trivial ⟨fun _ => hopen, fun hing => ?_, fun hend => ?_⟩
      · exact absurd (hing.symm.trans hst) ING_ne_START
      · exact absurd (hend.symm.trans hst) END_ne_START
  | notCreated hr hst hopen =>
      rw [forall_received hr]
      refine iff_of_false ?_ fun hok => ?_
      · apply not_resultTruthful_failed
        exact .inl rfl
      · exact Bool.false_ne_true (hopen.symm.trans (hok.start hst))
  | overrun hr hst hlen =>
      rw [forall_received hr]
      exact iff_of_false id fun hok => absurd (hok.data hst).1 (Nat.not_le_of_lt hlen)
  | @badSum frame hr hst hlen hsum =>
      rw [forall_received hr]
      have hfail : Failed host ⟨frame, .none, FAIL⟩ := .inr (.inl ⟨hst, hsum⟩)
      refine iff_of_false ?_ fun hok => hsum (hok.data hst).2.1
      apply not_resultTruthful_failed
      exact hfail
  | notOpen hr hst hlen hsum hfp =>
      rw [forall_received hr]
      exact iff_of_false id fun hok => (hok.data hst).2.2.1 hfp
  | appended hr hst hlen hsum hfp hwrite =>
      rw [forall_received hr]
      refine iff_of_true trivial ⟨fun hstart => ?_, fun _ => ?_, fun hend => ?_⟩
      · exact absurd (hst.symm.trans hstart) ING_ne_START
      · exact ⟨hlen, hsum, by simp [hfp], hwrite⟩
      · exact absurd (hend.symm.trans hst) END_ne_ING
  | @cutShort frame file hr hst hlen hsum hfp hwrite =>
      rw [forall_received hr]
      have hshort : ((payload host frame).take ev.fwrite).length < (dataLen host frame).toNat := by
        rw [List.length_take]
        omega
      have hfail : Failed host ⟨frame, .fwrite file.id ((payload host frame).take ev.fwrite), FAIL⟩ :=
        .inr (.inr (.inl ⟨_, _, rfl, hshort⟩))
      refine iff_of_false ?_ fun hok => ?_
      · apply not_resultTruthful_failed
        exact hfail
      · exact absurd (hok.data hst).2.2.2 (Nat.not_le_of_lt hwrite)
  | flushed hr hst hflush =>
      rw [forall_received hr, resultTruthful_flushed_iff h hst]
      constructor
      · intro hfile
        refine ⟨fun hstart => ?_, fun hing => ?_, fun _ => ⟨hflush, hfile⟩⟩
        · exact absurd (hst.symm.trans hstart) END_ne_START
        · exact absurd (hst.symm.trans hing) END_ne_ING
      · intro hok
        exact (hok.finish hst).2
  | notFlushed hr hst hflush =>
      rw [forall_received hr]
      refine iff_of_false ?_ fun hok => ?_
      · apply not_resultTruthful_failed
        exact .inr (.inr (.inr ⟨_, rfl⟩))
      · exact Bool.false_ne_true (hflush.symm.trans (hok.finish hst).1)
  | unknown hr hstart hing hend =>
      rw [forall_received hr]
      exact iff_of_true trivial
        ⟨fun h => absurd h hstart, fun h => absurd h hing, fun h => absurd h hend⟩

theorem Tallied.pass (h : Tallied host s) {t : RecvState} (hp : Pass host s ev (.running t)) :
    Tallied host t := by
  cases hp with
  | @created frame hr hst hopen =>
      constructor
      · intro _
        rw [RecvState.reply_history, announced_concat, createFile_frame, RecvState.reply_fileSize,
          createFile_fileSize]
        rfl
      · intro file hfile
        rw [RecvState.reply_history, accepted_concat, createFile_frame, acceptExchange_start _ hst]
        cases hfile
        rfl
  | @appended frame file hr hst hlen hsum hfp hwrite =>
      constructor
      · intro _
        rw [RecvState.reply_history, announced_concat]
        exact h.size (by simp [hfp])
      · intro file' hfile
        cases hfile
        rw [RecvState.reply_history, accepted_concat, RecvState.count_frame,
          RecvState.append_frame, acceptExchange_acked _ hst, OutFile.fwrite_content,
          h.bytes file hfp]
        rfl
  | @unknown frame hr hstart hing hend =>
      constructor
      · intro hopen
        rw [RecvState.reply_history, announced_concat]
        exact h.size hopen
      · intro file hfile
        rw [RecvState.reply_history, accepted_concat,
          acceptExchange_ignored _ hstart (fun hst => absurd hst hing)]
        exact h.bytes file hfile

theorem tallied_init (stack : EthernetFrame) : Tallied host (RecvState.init stack) where
  size := fun hopen => absurd rfl hopen
  bytes := nofun

end Result

theorem result_pass_iff (host : Host) (s : RecvState) (ev : RecvEvent) (h : Tallied host s) :
    ResultTruthful host (fileRecvPass host s ev) ↔
      ∀ frame, received host s ev = some frame → Succeeds host s ev frame :=
  h.succeeds_iff (fileRecvPass_spec host s ev)

/-- **The value `fileRecv` returns tells a complete transfer from a broken
one exactly when nothing breaks**: all four failures join the normal end at
`quit`, which returns 0. -/
theorem result_truthful_iff (host : Host) (stack : EthernetFrame) (evs : List RecvEvent) :
    AfterEveryTurn (fileRecvPass host) (ResultTruthful host) (RecvState.init stack) evs ↔
      BeforeEveryTurn (fileRecvPass host) (fun s ev =>
        ∀ frame, received host s ev = some frame → Succeeds host s ev frame)
        (RecvState.init stack) evs := by
  refine afterEveryTurn_iff ?_ (result_pass_iff host) (tallied_init stack) evs
  intro s ev t h _ hrun
  exact h.pass (hrun ▸ fileRecvPass_spec host s ev)

/-- A START arrives and `fopen` fails. -/
def noCreate : RecvEvent := { deliver (framed (beBytes 4 START.toNat)) with fopen := false }

/-- `fileRecv` returns 0. -/
theorem failed_create_returns_zero :
    ¬ AfterEveryTurn (fileRecvPass .little) (ResultTruthful .little) (RecvState.init blankFrame)
      [noCreate] := by
  have hr : received .little (RecvState.init blankFrame) noCreate
      = some (blankFrame.fill (framed (beBytes 4 START.toNat))) := received_of_sent rfl
  refine not_afterEveryTurn (result_pass_iff .little) (tallied_init blankFrame) ?_ []
  intro hok
  exact Bool.false_ne_true ((hok _ hr).start (frameStatus_framed .little START))

end BeEasy.FileTransmit
