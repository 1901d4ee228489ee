import BeEasy.FileTransmit.ReceiverExit

/-!
# FileTransmit — Receiver acks

What `recvFileData` touches, and what the acks of a run say about the
frames they answer, for every sequence of frames and every outcome of the
file operations.

Each guarantee here and in `ReceiverStreams` and `ReceiverResult` is a
predicate on where the loop stands. It fails on some inputs, so it comes
with the exact condition on a pass under which the pass keeps it, and the
theorem is that a run meets the guarantee exactly when all its passes meet
the condition. A fault leaves the behaviour undefined and meets none.
-/

namespace BeEasy.FileTransmit

open CVerif

/-! ## Bounds of `recvFileData` -/

/-- -1 with nothing written, `recvCount` included. -/
def Rejects (host : Host) (s : RecvState) (fwrite drained : Nat) : Prop :=
  recvFileData host s fwrite drained = .ok ⟨s, -1, .none⟩

/-- Accesses stay inside `frame->data` and `buf`, and a frame that is too
long or does not match its sum is rejected. -/
def Confined (host : Host) (s : RecvState) (fwrite drained : Nat) : Prop :=
  recvFileData host s fwrite drained ≠ .error .outOfBounds ∧
    (TRANSMITSIZE < (dataLen host s.frame).toNat → Rejects host s fwrite drained) ∧
    (dataSum host s.frame ≠ sumBytes (payload host s.frame) → Rejects host s fwrite drained)

/-- **`recvFileData` stays inside its buffers exactly for the lengths an
honest sender uses**: `len` is not compared with anything. -/
theorem recvFileData_confined_iff (host : Host) (s : RecvState) (fwrite drained : Nat) :
    Confined host s fwrite drained ↔ (dataLen host s.frame).toNat ≤ TRANSMITSIZE := by
  by_cases hlen : (dataLen host s.frame).toNat ≤ TRANSMITSIZE
  · refine iff_of_true ⟨?_, ?_, recvFileData_badSum s hlen⟩ hlen
    · rw [recvFileData_eq s hlen]
      split
      · simp
      · cases s.fp with
        | none => simp
        | some file =>
            simp only
            split
            · simp
            · simp
    · intro hover
      exact absurd hlen (Nat.not_le_of_lt hover)
  · refine iff_of_false ?_ hlen
    intro ⟨hsafe, _, _⟩
    exact hsafe (recvFileData_overrun s (Nat.lt_of_not_le hlen))

/-- A data frame without data whose length field says 1489. -/
def tooLong : List Byte :=
  beBytes 4 ING.toNat ++ (beBytes 4 (1489#32).toNat ++ beBytes 4 (0#32).toNat)

theorem recvFileData_overruns :
    ¬ Confined .little { RecvState.init blankFrame with frame := blankFrame.fill (framed tooLong) }
      TRANSMITSIZE TRANSMITSIZE := by
  have hlen : dataLen .little (blankFrame.fill (framed tooLong)) = 1489#32 := by
    apply dataLen_eq
    rw [framed_data blankFrame (by decide), tooLong, List.append_assoc, List.append_assoc]
  intro ⟨hsafe, _, _⟩
  exact hsafe (recvFileData_overrun _ (by rw [hlen]; decide))

/-! ## What an ack says -/

def acceptExchange (host : Host) (bytes : List Byte) (x : Exchange) : List Byte :=
  if frameStatus host x.frame = START then []
  else if frameStatus host x.frame = ING ∧ x.reply = SUCCESS then bytes ++ payload host x.frame
  else bytes

/-- The payloads of the data frames answered with SUCCESS since the last
START, in order. -/
def accepted (host : Host) (history : List Exchange) : List Byte :=
  history.foldl (acceptExchange host) []

theorem accepted_concat (host : Host) (history : List Exchange) (x : Exchange) :
    accepted host (history ++ [x]) = acceptExchange host (accepted host history) x := by
  rw [accepted, List.foldl_append]
  rfl

/-- The frame was understood and done: a START whose file was created, a
data frame whose bytes match its sum and were all appended, an END whose
flush succeeded. -/
def Applied (host : Host) (x : Exchange) : Prop :=
  (frameStatus host x.frame = START ∧ x.effect = .fopen true) ∨
  (frameStatus host x.frame = ING ∧ dataSum host x.frame = sumBytes (payload host x.frame) ∧
    (payload host x.frame).length = (dataLen host x.frame).toNat ∧
    ∃ stream, x.effect = .fwrite stream (payload host x.frame)) ∨
  (frameStatus host x.frame = END ∧ ∃ stream, x.effect = .fflush stream true)

/-- SUCCESS was answered only to frames that were applied. -/
def OnlyApplied (host : Host) (t : RecvState) : Prop :=
  ∀ x ∈ t.history, x.reply = SUCCESS → Applied host x

/-- ... and the stream of the output file took the accepted payloads. -/
def Truthful (host : Host) (t : RecvState) : Prop :=
  OnlyApplied host t ∧ t.output = accepted host t.history

section Claimed

variable {ν : Type} [DecidableEq ν] (host : Host) (lead : List Byte → ν) (last : Nat)

/-- While the receiver runs its stream may hold some of the accepted payloads
back. Once it has returned, they are in the output file when the process has
ended: `quit` has closed the file, and the return of -1 leaves it to `exit`,
which writes `last` of what is held back. -/
def AcksTruthful : Progress RecvState Int Fault → Prop
  | .running t => Truthful host t
  | .returned t r =>
      OnlyApplied host t ∧ t.Leaves lead (if r < 0 then last else 0) (accepted host t.history)
  | .faulted _ => False

omit [DecidableEq ν] in
/-- The status is one of the three the protocol has, and a data frame fits the
buffer. One that matches its sum meets an open file, whose stream takes all of
it, or else writes out just what it held before. Where the frame ends the run,
all that is held is written out, and nothing else by forgotten streams. -/
structure Understood (s : RecvState) (ev : RecvEvent) (frame : EthernetFrame) : Prop where
  known : frameStatus host frame = START ∨ frameStatus host frame = ING ∨
    frameStatus host frame = END
  finish : frameStatus host frame = END →
    (ev.fflush = true ∨ s.HoldsAtMost (ev.flushed + ev.fclose)) ∧ s.Undisturbed lead
  fits : frameStatus host frame = ING → (dataLen host frame).toNat ≤ TRANSMITSIZE
  refused : frameStatus host frame = ING → dataSum host frame ≠ sumBytes (payload host frame) →
    s.HoldsAtMost ev.fclose ∧ s.Undisturbed lead
  stored : frameStatus host frame = ING → dataSum host frame = sumBytes (payload host frame) →
    ∃ own, s.fp = some own ∧ ((dataLen host frame).toNat ≤ ev.fwrite ∨
      own.buffer.length ≤ ev.drained + ev.fclose ∧
        (ev.fwrite = 0 ∨ ev.drained + ev.fclose = own.buffer.length) ∧ s.Undisturbed lead)

/-- A pass that receives a frame understands it, and one that receives none
leaves `exit` with nothing it cannot write. -/
def Sound (s : RecvState) (ev : RecvEvent) : Prop :=
  match received host s ev with
  | some frame => Understood host lead s ev frame
  | none => s.HoldsAtMost last ∧ s.Undisturbed lead

end Claimed

section Acks

variable {ν : Type} [DecidableEq ν] {host : Host} {lead : List Byte → ν} {last : Nat}
  {s : RecvState} {ev : RecvEvent}

section

variable {frame : EthernetFrame} {effect : Effect} {stat : BitVec 32} (bytes : List Byte)

theorem acceptExchange_start (hst : frameStatus host frame = START) :
    acceptExchange host bytes ⟨frame, effect, stat⟩ = [] := if_pos hst

theorem acceptExchange_acked (hst : frameStatus host frame = ING) :
    acceptExchange host bytes ⟨frame, effect, SUCCESS⟩ = bytes ++ payload host frame := by
  rw [acceptExchange, hst, if_neg ING_ne_START, if_pos ⟨rfl, rfl⟩]

theorem acceptExchange_ignored (hstart : frameStatus host frame ≠ START)
    (hing : frameStatus host frame = ING → stat ≠ SUCCESS) :
    acceptExchange host bytes ⟨frame, effect, stat⟩ = bytes := by
  rw [acceptExchange, if_neg hstart, if_neg (fun h => hing h.1 h.2)]

end

omit [DecidableEq ν] in
theorem sound_received {frame : EthernetFrame} (hr : received host s ev = some frame) :
    Sound host lead last s ev ↔ Understood host lead s ev frame := by
  rw [Sound, hr]

omit [DecidableEq ν] in
theorem understood_start {frame : EthernetFrame} (hst : frameStatus host frame = START) :
    Understood host lead s ev frame where
  known := .inl hst
  finish hend := absurd (hend.symm.trans hst) END_ne_START
  fits hing := absurd (hing.symm.trans hst) ING_ne_START
  refused hing := absurd (hing.symm.trans hst) ING_ne_START
  stored hing := absurd (hing.symm.trans hst) ING_ne_START

omit [DecidableEq ν] in
theorem understood_end_iff {frame : EthernetFrame} (hst : frameStatus host frame = END) :
    Understood host lead s ev frame ↔
      (ev.fflush = true ∨ s.HoldsAtMost (ev.flushed + ev.fclose)) ∧ s.Undisturbed lead := by
  constructor
  · intro hok
    exact hok.finish hst
  · intro hends
    exact ⟨.inr (.inr hst), fun _ => hends, fun hing => absurd (hst.symm.trans hing) END_ne_ING,
      fun hing => absurd (hst.symm.trans hing) END_ne_ING,
      fun hing => absurd (hst.symm.trans hing) END_ne_ING⟩

omit [DecidableEq ν] in
/-- What is asked of a data frame that fits. -/
theorem understood_ing {frame : EthernetFrame} (hst : frameStatus host frame = ING)
    (hlen : (dataLen host frame).toNat ≤ TRANSMITSIZE)
    (hrefused : dataSum host frame ≠ sumBytes (payload host frame) →
      s.HoldsAtMost ev.fclose ∧ s.Undisturbed lead)
    (hstored : dataSum host frame = sumBytes (payload host frame) →
      ∃ own, s.fp = some own ∧ ((dataLen host frame).toNat ≤ ev.fwrite ∨
        own.buffer.length ≤ ev.drained + ev.fclose ∧
          (ev.fwrite = 0 ∨ ev.drained + ev.fclose = own.buffer.length) ∧ s.Undisturbed lead)) :
    Understood host lead s ev frame where
  known := .inr (.inl hst)
  finish hend := absurd (hend.symm.trans hst) END_ne_ING
  fits _ := hlen
  refused _ := hrefused
  stored _ := hstored

/-- One more exchange keeps SUCCESS for what was applied, if it does so
itself. -/
theorem OnlyApplied.reply (h : OnlyApplied host s) {t : RecvState} {effect : Effect}
    {stat : BitVec 32} {sendto : Bool} (hhist : t.history = s.history)
    (happ : stat = SUCCESS → Applied host ⟨t.frame, effect, stat⟩) :
    OnlyApplied host (t.reply host effect stat sendto) := by
  intro x hx hreply
  rw [RecvState.reply_history, hhist, List.mem_append, List.mem_singleton] at hx
  rcases hx with hx | rfl
  · exact h x hx hreply
  · exact happ hreply

/-- One more exchange keeps the acks truthful if it is so itself and the
stream moved with it. -/
theorem Truthful.reply (h : Truthful host s) {t : RecvState} {effect : Effect} {stat : BitVec 32}
    {sendto : Bool} (hhist : t.history = s.history)
    (happ : stat = SUCCESS → Applied host ⟨t.frame, effect, stat⟩)
    (hout : t.output = acceptExchange host s.output ⟨t.frame, effect, stat⟩) :
    Truthful host (t.reply host effect stat sendto) := by
  refine ⟨h.1.reply hhist happ, ?_⟩
  rw [RecvState.reply_history, hhist, accepted_concat, ← h.2]
  exact hout

/-- An exchange that ends the run at `quit` leaves the accepted payloads if
the file is left with what its stream held of them before. -/
theorem Truthful.quit_iff (h : Truthful host s) {t : RecvState} {effect : Effect}
    {stat : BitVec 32} {sendto : Bool} (hhist : t.history = s.history)
    (happ : stat = SUCCESS → Applied host ⟨t.frame, effect, stat⟩)
    (haccept : acceptExchange host s.output ⟨t.frame, effect, stat⟩ = s.output) :
    AcksTruthful host lead last
        (.returned ((t.reply host effect stat sendto).quit ev.fclose) 0)
      ↔ t.Leaves lead ev.fclose s.output := by
  have hall : accepted host ((t.reply host effect stat sendto).quit ev.fclose).history
      = s.output := by
    rw [RecvState.quit_history, RecvState.reply_history, hhist, accepted_concat, ← h.2, haccept]
  have honly : OnlyApplied host (t.reply host effect stat sendto) := h.1.reply hhist happ
  have hquit : OnlyApplied host ((t.reply host effect stat sendto).quit ev.fclose) := honly
  rw [AcksTruthful, and_iff_right hquit, hall, if_neg (by decide), leaves_quit_iff]
  exact Iff.rfl

/-- A refusal of anything but a START accepts nothing. -/
theorem Truthful.refuse_iff (h : Truthful host s) {t : RecvState} {effect : Effect}
    {sendto : Bool} (hhist : t.history = s.history) (hst : frameStatus host t.frame ≠ START) :
    AcksTruthful host lead last
        (.returned ((t.reply host effect FAIL sendto).quit ev.fclose) 0)
      ↔ t.Leaves lead ev.fclose s.output := by
  refine h.quit_iff hhist (fun hstat => absurd hstat FAIL_ne_SUCCESS) ?_
  exact acceptExchange_ignored _ hst (fun _ => FAIL_ne_SUCCESS)

/-- A data frame with a wrong sum ends the run with what is held so far. -/
theorem Truthful.badSum_iff (h : Truthful host s) {frame : EthernetFrame} {sendto : Bool}
    (hst : frameStatus host frame = ING) :
    AcksTruthful host lead last
        (.returned ((RecvState.reply host { s with frame } .none FAIL sendto).quit ev.fclose) 0)
      ↔ s.HoldsAtMost ev.fclose ∧ s.Undisturbed lead := by
  have hleaves : AcksTruthful host lead last
      (.returned ((RecvState.reply host { s with frame } .none FAIL sendto).quit ev.fclose) 0)
        ↔ s.Leaves lead ev.fclose s.output := h.refuse_iff rfl (hst.trans_ne ING_ne_START)
  rw [hleaves, leaves_output_iff]

/-- One that the stream did not take whole ends it with a part of its bytes. -/
theorem Truthful.cutShort_iff (h : Truthful host s) {frame : EthernetFrame} {file : OutFile}
    {effect : Effect} {sendto : Bool} (hst : frameStatus host frame = ING)
    (hlen : (dataLen host frame).toNat ≤ TRANSMITSIZE) (hfp : s.fp = some file)
    (hwrite : ev.fwrite < (dataLen host frame).toNat) :
    AcksTruthful host lead last
        (.returned ((RecvState.reply host (RecvState.append { s with frame } file
          ((payload host frame).take ev.fwrite) ev.drained) effect FAIL sendto).quit ev.fclose) 0)
      ↔ file.buffer.length ≤ ev.drained + ev.fclose ∧
        (ev.fwrite = 0 ∨ ev.drained + ev.fclose = file.buffer.length) ∧ s.Undisturbed lead := by
  have hleaves : AcksTruthful host lead last
      (.returned ((RecvState.reply host (RecvState.append { s with frame } file
        ((payload host frame).take ev.fwrite) ev.drained) effect FAIL sendto).quit ev.fclose) 0)
        ↔ (RecvState.append { s with frame } file ((payload host frame).take ev.fwrite)
          ev.drained).Leaves lead ev.fclose s.output :=
    h.refuse_iff rfl (hst.trans_ne ING_ne_START)
  have hne : payload host frame ≠ [] := by
    intro hnil
    have hlong := length_payload hlen
    rw [hnil, List.length_nil] at hlong
    omega
  have hnone : (payload host frame).take ev.fwrite = [] ↔ ev.fwrite = 0 := by
    rw [List.take_eq_nil_iff, or_iff_left hne]
  rw [hleaves, leaves_append_iff hfp, hnone]

/-- An END ends the run with what its flush and the close write out. -/
theorem Truthful.flush_iff (h : Truthful host s) {frame : EthernetFrame} {sendto : Bool}
    (hst : frameStatus host frame = END) (ok : Bool) :
    AcksTruthful host lead last
        (.returned (((flushFile { s with frame } ok ev.flushed).state.reply host
          (.fflush (s.fp.map OutFile.id) ok) (if ok then SUCCESS else FAIL) sendto).quit
          ev.fclose) 0)
      ↔ (ok = true ∨ s.HoldsAtMost (ev.flushed + ev.fclose)) ∧ s.Undisturbed lead := by
  have hleaves : AcksTruthful host lead last
      (.returned (((flushFile { s with frame } ok ev.flushed).state.reply host
        (.fflush (s.fp.map OutFile.id) ok) (if ok then SUCCESS else FAIL) sendto).quit
        ev.fclose) 0)
        ↔ (flushFile { s with frame } ok ev.flushed).state.Leaves lead ev.fclose s.output := by
    refine h.quit_iff (flushFile_history ..) ?_ ?_
    · intro hstat
      have hok : ok = true := by
        by_contra hno
        rw [if_neg hno] at hstat
        exact FAIL_ne_SUCCESS hstat
      rw [flushFile_frame]
      exact .inr (.inr ⟨hst, _, by rw [hok]⟩)
    · rw [flushFile_frame]
      exact acceptExchange_ignored _ (hst.trans_ne END_ne_START)
        fun hing => absurd (hst.symm.trans hing) END_ne_ING
  rw [hleaves, flushFile_leaves_iff]

/-- A frame of no known status is never applied. -/
theorem not_applied_unknown {frame : EthernetFrame} {effect : Effect} {stat : BitVec 32}
    (hstart : frameStatus host frame ≠ START) (hing : frameStatus host frame ≠ ING)
    (hend : frameStatus host frame ≠ END) : ¬ Applied host ⟨frame, effect, stat⟩ := by
  rintro (⟨hst, -⟩ | ⟨hst, -⟩ | ⟨hst, -⟩)
  · exact hstart hst
  · exact hing hst
  · exact hend hst

theorem Truthful.sound_iff (h : Truthful host s) {p : Progress RecvState Int Fault}
    (hp : Pass host s ev p) : AcksTruthful host lead last p ↔ Sound host lead last s ev := by
  cases hp with
  | notReceived hr =>
      have hleaves : s.Leaves lead last (accepted host s.history) ↔ _ :=
        h.2 ▸ leaves_output_iff
      rw [Sound, hr, AcksTruthful, if_pos (by decide)]
      exact (and_iff_right h.1).trans hleaves
  | created hr hst hopen =>
      rw [sound_received hr]
      refine iff_of_true (h.reply (createFile_history ..) ?_ ?_) (understood_start hst)
      · intro _
        exact .inl ⟨by simpa using hst, rfl⟩
      · rw [createFile_frame, acceptExchange_start _ hst]
        rfl
  | @notCreated frame hr hst hopen =>
      rw [sound_received hr]
      -- no file is open, and nothing is accepted since this START
      have honly : OnlyApplied host ((createFile host { s with frame } false).state.reply host
          (.fopen false) FAIL ev.sendto) :=
        h.1.reply (createFile_history ..) fun hstat => absurd hstat FAIL_ne_SUCCESS
      refine iff_of_true ⟨honly, ?_⟩ (understood_start hst)
      refine (leaves_none rfl).mpr ?_
      rw [RecvState.quit_history, RecvState.reply_history, accepted_concat, createFile_frame,
        acceptExchange_start _ hst]
  | overrun hr hst hlen =>
      rw [sound_received hr]
      exact iff_of_false id fun hok => absurd (hok.fits hst) (Nat.not_le_of_lt hlen)
  | badSum hr hst hlen hsum =>
      rw [sound_received hr, h.badSum_iff hst]
      constructor
      · intro hleft
        exact understood_ing hst hlen (fun _ => hleft) fun heq => absurd heq hsum
      · intro hok
        exact hok.refused hst hsum
  | notOpen hr hst hlen hsum hfp =>
      rw [sound_received hr]
      refine iff_of_false id fun hok => ?_
      obtain ⟨own, hopen, -⟩ := hok.stored hst hsum
      cases hfp.symm.trans hopen
  | @appended frame file hr hst hlen hsum hfp hwrite =>
      rw [sound_received hr]
      refine iff_of_true (h.reply rfl ?_ ?_) (understood_ing hst hlen
        (fun hne => absurd hsum hne) fun _ => ⟨file, hfp, .inl hwrite⟩)
      · intro _
        exact .inr (.inl ⟨hst, hsum, length_payload hlen, file.id, rfl⟩)
      · rw [RecvState.count_frame, RecvState.append_frame, acceptExchange_acked _ hst]
        simp [RecvState.output, hfp]
  | @cutShort frame file hr hst hlen hsum hfp hwrite =>
      rw [sound_received hr, h.cutShort_iff hst hlen hfp hwrite]
      constructor
      · intro hleft
        exact understood_ing hst hlen (fun hbad => absurd hsum hbad)
          fun _ => ⟨file, hfp, .inr hleft⟩
      · intro hok
        obtain ⟨own, hopen, hstored⟩ := hok.stored hst hsum
        cases hfp.symm.trans hopen
        exact hstored.resolve_left (Nat.not_le_of_lt hwrite)
  | flushed hr hst hflush =>
      rw [sound_received hr, understood_end_iff hst, hflush]
      exact h.flush_iff hst true
  | notFlushed hr hst hflush =>
      rw [sound_received hr, understood_end_iff hst, hflush]
      exact h.flush_iff hst false
  | unknown hr hstart hing hend =>
      rw [sound_received hr]
      refine iff_of_false ?_ ?_
      · intro hgood
        have happ := hgood.1 _ (by rw [RecvState.reply_history]; exact List.mem_concat_self) rfl
        exact not_applied_unknown hstart hing hend happ
      · intro hok
        rcases hok.known with hst | hst | hst
        · exact hstart hst
        · exact hing hst
        · exact hend hst

omit [DecidableEq ν] in
theorem truthful_init (stack : EthernetFrame) : Truthful host (RecvState.init stack) := by
  constructor
  · intro x hx
    simp [RecvState.init] at hx
  · rfl

end Acks

section Runs

variable {ν : Type} [DecidableEq ν] (host : Host) (lead : List Byte → ν) (last : Nat)

theorem acks_pass_iff (s : RecvState) (ev : RecvEvent) (h : Truthful host s) :
    AcksTruthful host lead last (fileRecvPass host s ev) ↔ Sound host lead last s ev :=
  h.sound_iff (fileRecvPass_spec host s ev)

/-- **Every ack of a run is truthful and the file holds what was accepted,
exactly when the run meets only frames it understands** and all that its
stream holds back is written out in the end, by no other stream overwritten.
A frame of another status falls through the `switch` with `ret` still 0. -/
theorem acks_truthful_iff (stack : EthernetFrame) (evs : List RecvEvent) :
    AfterEveryTurn (fileRecvPass host) (AcksTruthful host lead last) (RecvState.init stack) evs ↔
      BeforeEveryTurn (fileRecvPass host) (Sound host lead last) (RecvState.init stack) evs := by
  refine afterEveryTurn_iff ?_ (acks_pass_iff host lead last) (truthful_init stack) evs
  intro s ev t h hP hrun
  have hgood := (acks_pass_iff host lead last s ev h).mpr hP
  rw [hrun] at hgood
  exact hgood

end Runs

/-- A frame with status 0 arrives. -/
def statusZero : RecvEvent := deliver (framed (beBytes 4 (0#32).toNat))

/-- It is answered with SUCCESS. -/
theorem unknown_status_acked :
    ¬ AfterEveryTurn (fileRecvPass .little) (AcksTruthful .little (fun name => name) 0)
      (RecvState.init blankFrame) [statusZero] := by
  have hr : received .little (RecvState.init blankFrame) statusZero
      = some (blankFrame.fill (framed (beBytes 4 (0#32).toNat))) := received_of_sent rfl
  have hst : frameStatus .little (blankFrame.fill (framed (beBytes 4 (0#32).toNat))) = 0#32 :=
    frameStatus_framed .little 0#32
  refine not_afterEveryTurn (acks_pass_iff .little (fun name => name) 0)
    (truthful_init blankFrame) ?_ []
  intro hok
  have hknown := ((sound_received hr).mp hok).known
  rw [hst] at hknown
  exact absurd hknown (by decide)

end BeEasy.FileTransmit
