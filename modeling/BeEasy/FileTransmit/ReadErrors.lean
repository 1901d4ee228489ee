import BeEasy.FileOperation.CopyFile
import BeEasy.FileTransmit.Peers
import BeEasy.FileTransmit.SenderResult

/-!
# FileTransmit — Read errors

The loop of `sendFileData` on a source that ends in the end of the file or in
an error that stays, with every frame sent and acknowledged. `feof` is all it
asks, as in the copy loop of `copy_file`: behind an error it sends empty
packets for ever, and neither loop has a result to report the error with.
-/

namespace BeEasy.FileTransmit

open CVerif
open FileOperation (CopyEvent CopyEnds chunkAt)

/-- How the next read ends. -/
def SendPc.outcome (ending : Ending) : SendPc → Option Nat
  | .loop fp => ending.outcome fp TRANSMITSIZE
  | _ => none

/-- A turn whose source ends this way. -/
def sendTurn (host : Host) (ending : Ending) (s : SendState) (ev : SendEvent) :
    Progress SendState Int Fault :=
  fileSendTurn host s { ev with fread := s.pc.outcome ending }

/-- The frame goes out, and what comes back is SUCCESS. -/
structure SendEvent.Acked (host : Host) (ev : SendEvent) : Prop where
  sendto : ev.sendto = true
  reply : replyTo host ev = .status SUCCESS

/-- Inside the loop of `sendFileData`, at its head or at its `recvAck`. -/
def SendPc.InLoop (fp : InStream) (pc : SendPc) : Prop :=
  pc = .loop fp ∨ ∃ chunk, pc = .dataAck chunk fp

/-- The result of `sendFileData` once it has one: 0 when END is on its way,
else what `fileSend` returned with. -/
def loopResult : Progress SendState Int Fault → Option Int
  | .running s => match s.pc with
    | .endAck => some 0
    | _ => none
  | .returned _ r => some r
  | .faulted _ => none

/-- The loop ends, and after a read error the result is negative. -/
def SendEnds (host : Host) (s : SendState) (ending : Ending) (evs : Nat → SendEvent) : Prop :=
  ∃ n r, loopResult (after (sendTurn host ending) s evs n) = some r ∧
    (ending = .readError → r < 0)

section Loop

variable {host : Host} {ending : Ending} {s : SendState} {ev : SendEvent} {fp : InStream}

theorem sendTurn_spec (host : Host) (ending : Ending) (s : SendState) (ev : SendEvent) :
    Turn host s { ev with fread := s.pc.outcome ending } (sendTurn host ending s ev) :=
  fileSendTurn_spec host s _

/-- At the head of the loop the turn sends the next chunk, or END behind the
end of the file. -/
theorem sendTurn_loop (ending : Ending) (hpc : s.pc = .loop fp) (hack : ev.Acked host) :
    ∃ t, sendTurn host ending s ev = .running t ∧ if fp.eof then t.pc = .endAck
      else ∃ chunk, t.pc
        = .dataAck chunk (fp.fread TRANSMITSIZE (ending.outcome fp TRANSMITSIZE)).2 := by
  have hspec := sendTurn_spec host ending s ev
  generalize sendTurn host ending s ev = q at hspec
  cases hspec with
  | issued hask hsend =>
      cases hask with
      | start hpc' => cases hpc.symm.trans hpc'
      | data hpc' heof =>
          cases hpc.symm.trans hpc'
          refine ⟨_, rfl, ?_⟩
          rw [heof, if_neg (by simp), hpc]
          exact ⟨_, rfl⟩
      | finish hpc' heof =>
          cases hpc.symm.trans hpc'
          refine ⟨_, rfl, ?_⟩
          rw [heof, if_pos rfl]
          rfl
  | notIssued hask hsend => cases hsend.symm.trans hack.sendto
  | noSetup hpc' | startAcked hpc' | startRefused hpc' | chunkAcked hpc' | chunkRefused hpc'
  | finished hpc' => cases hpc.symm.trans hpc'

/-- At the `recvAck` it goes back to the head. -/
theorem sendTurn_dataAck (ending : Ending) {chunk : List Byte}
    (hpc : s.pc = .dataAck chunk fp) (hack : ev.Acked host) :
    ∃ t, sendTurn host ending s ev = .running t ∧ t.pc = .loop fp := by
  have hspec := sendTurn_spec host ending s ev
  generalize sendTurn host ending s ev = q at hspec
  cases hspec with
  | chunkAcked hpc' =>
      cases hpc.symm.trans hpc'
      exact ⟨_, rfl, rfl⟩
  | chunkRefused hpc' hr => exact absurd hack.reply hr
  | issued hask | notIssued hask =>
      exact absurd (by simp [SendPc.Waits, hpc]) hask.not_waits
  | noSetup hpc' | startAcked hpc' | startRefused hpc' | finished hpc' =>
      cases hpc.symm.trans hpc'

theorem sendTurn_endAck (host : Host) (ending : Ending) (ev : SendEvent) (hpc : s.pc = .endAck) :
    ∃ t r, sendTurn host ending s ev = .returned t r := by
  have hspec := sendTurn_spec host ending s ev
  generalize sendTurn host ending s ev = q at hspec
  cases hspec with
  | finished hpc' => exact ⟨_, _, rfl⟩
  | issued hask | notIssued hask =>
      exact absurd (by simp [SendPc.Waits, hpc]) hask.not_waits
  | noSetup hpc' | startAcked hpc' | startRefused hpc' | chunkAcked hpc' | chunkRefused hpc' =>
      cases hpc.symm.trans hpc'

/-- Where a run that starts at the loop can stand. -/
def Looping : Progress SendState Int Fault → Prop
  | .running s => (∃ fp, s.pc.InLoop fp) ∨ s.pc = .endAck
  | .returned _ _ => True
  | .faulted _ => False

theorem Looping.turn (hack : ev.Acked host) (h : Looping (.running s)) :
    Looping (sendTurn host ending s ev) := by
  rcases h with ⟨fp, hpc | ⟨chunk, hpc⟩⟩ | hpc
  · obtain ⟨t, ht, hnext⟩ := sendTurn_loop ending hpc hack
    rw [ht]
    split at hnext
    · exact .inr hnext
    · obtain ⟨chunk, hnext⟩ := hnext
      exact .inl ⟨_, .inr ⟨chunk, hnext⟩⟩
  · obtain ⟨t, ht, hnext⟩ := sendTurn_dataAck ending hpc hack
    rw [ht]
    exact .inl ⟨fp, .inl hnext⟩
  · obtain ⟨t, r, ht⟩ := sendTurn_endAck host ending ev hpc
    rw [ht]
    trivial

/-- A run that has left the loop has the result of `sendFileData`. -/
theorem Looping.result {q : Progress SendState Int Fault} (h : Looping q)
    (hout : ∀ t, q = .running t → ¬ ∃ fp, t.pc.InLoop fp) : ∃ r, loopResult q = some r := by
  cases q with
  | running t =>
      rcases h with hin | hpc
      · exact absurd hin (hout t rfl)
      · exact ⟨0, by rw [loopResult, hpc]⟩
  | returned t r => exact ⟨r, rfl⟩
  | faulted f => exact h.elim

/-- The turns of the loop that are left before the end of the file. -/
def SendPc.turnsLeft : SendPc → Nat
  | .loop fp => 2 * fp.reads TRANSMITSIZE
  | .dataAck _ fp => 2 * fp.reads TRANSMITSIZE + 1
  | _ => 0

theorem turnsLeft_lowers {t : SendState} (hack : ev.Acked host)
    (hin : ∃ fp, s.pc.InLoop fp) (ht : sendTurn host .endOfFile s ev = .running t)
    (hin' : ∃ fp, t.pc.InLoop fp) : t.pc.turnsLeft < s.pc.turnsLeft := by
  obtain ⟨fp, hpc | ⟨chunk, hpc⟩⟩ := hin
  · obtain ⟨u, hu, hnext⟩ := sendTurn_loop .endOfFile hpc hack
    cases ht.symm.trans hu
    cases heof : fp.eof with
    | true =>
        rw [heof, if_pos rfl] at hnext
        obtain ⟨fp', hpc' | ⟨chunk, hpc'⟩⟩ := hin'
        · cases hnext.symm.trans hpc'
        · cases hnext.symm.trans hpc'
    | false =>
        rw [heof, if_neg (by simp)] at hnext
        obtain ⟨chunk, hnext⟩ := hnext
        have hreads := InStream.reads_fread (show 0 < TRANSMITSIZE by decide) heof
        rw [hnext, hpc, SendPc.turnsLeft, SendPc.turnsLeft, Ending.outcome]
        omega
  · obtain ⟨u, hu, hnext⟩ := sendTurn_dataAck .endOfFile hpc hack
    cases ht.symm.trans hu
    rw [hnext, hpc, SendPc.turnsLeft, SendPc.turnsLeft]
    exact Nat.lt_succ_self _

end Loop

/-- With an end of the file to read the loop ends. -/
theorem send_ends_endOfFile {host : Host} {s : SendState} {content : List Byte}
    (hs : s.pc = .loop (InStream.ofContent content)) {evs : Nat → SendEvent}
    (hacks : ∀ n, (evs n).Acked host) : SendEnds host s .endOfFile evs := by
  obtain ⟨n, hout⟩ := after_leaves (P := fun ev => ev.Acked host)
    (fun _ _ _ hin hack ht hin' => turnsLeft_lowers hack hin ht hin') s evs hacks
  have hlooping : Looping (after (sendTurn host .endOfFile) s evs n) :=
    after_keeps (P := fun ev => ev.Acked host) (fun _ _ hack h => Looping.turn hack h)
      (.inl ⟨_, .inl hs⟩) evs hacks n
  obtain ⟨r, hr⟩ := hlooping.result hout
  exact ⟨n, r, hr, nofun⟩

/-- **Behind a read error the loop never ends**: the indicator it waits for
stays down, and every empty packet is acknowledged. -/
theorem send_never_ends {host : Host} {s : SendState} {content : List Byte}
    (hs : s.pc = .loop (InStream.ofContent content)) {evs : Nat → SendEvent}
    (hacks : ∀ n, (evs n).Acked host) : ¬ SendEnds host s .readError evs := by
  have stays : ∀ (s : SendState) (ev : SendEvent), (∃ fp, fp.eof = false ∧ s.pc.InLoop fp) →
      ev.Acked host → ∃ t, sendTurn host .readError s ev = .running t ∧
        ∃ fp, fp.eof = false ∧ t.pc.InLoop fp := by
    intro s ev ⟨fp, heof, hin⟩ hack
    rcases hin with hpc | ⟨chunk, hpc⟩
    · obtain ⟨t, ht, hnext⟩ := sendTurn_loop .readError hpc hack
      rw [heof, if_neg (by simp)] at hnext
      obtain ⟨chunk, hnext⟩ := hnext
      exact ⟨t, ht, _, Ending.readError_eof.trans heof, .inr ⟨chunk, hnext⟩⟩
    · obtain ⟨t, ht, hnext⟩ := sendTurn_dataAck .readError hpc hack
      exact ⟨t, ht, fp, heof, .inl hnext⟩
  intro ⟨n, r, hr, _⟩
  obtain ⟨t, ht, fp, _, hin⟩ := after_stays stays ⟨_, rfl, .inl hs⟩ evs hacks n
  rw [ht, loopResult] at hr
  rcases hin with hpc | ⟨chunk, hpc⟩
  · rw [hpc] at hr
    cases hr
  · rw [hpc] at hr
    cases hr

/-- **The two `feof` loops end on a source that has an end of file**; behind a
read error the copy loop ends, with -1, if some write comes short, and the
send loop never does. -/
theorem feof_loops_end_iff (content : List Byte) (ending : Ending) (copies : Nat → CopyEvent)
    (host : Host) {s : SendState} (hs : s.pc = .loop (InStream.ofContent content))
    {evs : Nat → SendEvent} (hacks : ∀ n, (evs n).Acked host) :
    (CopyEnds content ending copies ↔
      ending = .endOfFile ∨ ∃ i, (copies i).fwrite < (chunkAt content i).length) ∧
    (SendEnds host s ending evs ↔ ending = .endOfFile) := by
  cases ending with
  | endOfFile =>
      exact ⟨iff_of_true (FileOperation.copy_ends_endOfFile content copies) (.inl rfl),
        iff_of_true (send_ends_endOfFile hs hacks) rfl⟩
  | readError =>
      constructor
      · rw [FileOperation.copy_ends_readError_iff]
        exact (or_iff_right nofun).symm
      · exact iff_of_false (send_never_ends hs hacks) nofun

/-- SUCCESS comes back. -/
def successBack : SendEvent :=
  { startSent with recvfrom := some (framed (beBytes 4 SUCCESS.toNat)) }

theorem successBack_acked : successBack.Acked .little := ⟨rfl, replyTo_of_sent rfl⟩

/-- The START for a source was acknowledged. -/
def atLoop (content : List Byte) : SendState :=
  { SendState.init content [] blankMac blankMac with pc := .loop (InStream.ofContent content) }

/-- The source holds two bytes, and no write of the copy comes short. -/
theorem feof_loops_end_iff_twoBytes :
    CopyEnds [97, 98] .endOfFile (fun _ => ⟨none, 2⟩) ∧
      SendEnds .little (atLoop [97, 98]) .endOfFile (fun _ => successBack) := by
  have h := feof_loops_end_iff [97, 98] .endOfFile (fun _ => ⟨none, 2⟩) .little
    (show (atLoop [97, 98]).pc = .loop (InStream.ofContent [97, 98]) from rfl)
    (fun _ => successBack_acked)
  exact ⟨h.1.mpr (.inl rfl), h.2.mpr rfl⟩

/-- A source whose first read fails, as that of a directory does. -/
theorem unreadable_source_loops :
    successBack.Acked .little ∧
      ¬ CopyEnds [] .readError (fun _ => ⟨none, FileOperation.TEMPBUF_SIZE⟩) ∧
      ¬ SendEnds .little (atLoop []) .readError (fun _ => successBack) := by
  refine ⟨successBack_acked, ?_, send_never_ends rfl (fun _ => successBack_acked)⟩
  rw [FileOperation.copy_ends_readError_iff]
  intro ⟨i, hshort⟩
  rw [chunkAt, List.drop_nil, List.take_nil] at hshort
  exact absurd hshort (Nat.not_lt_zero _)

end BeEasy.FileTransmit
