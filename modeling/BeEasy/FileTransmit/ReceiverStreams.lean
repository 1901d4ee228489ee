import BeEasy.FileTransmit.ReceiverPass

/-!
# FileTransmit — Receiver streams

Which stream an `fwrite` or an `fflush` of a run is applied to. `fp` is a
global that START sets and the other branches use untested, so the answer
depends on the order in which frames arrive.
-/

namespace BeEasy.FileTransmit

open CVerif

/-- The START at this position of the history opened its file. -/
def Opened (host : Host) (history : List Exchange) (stream : Nat) : Prop :=
  ∃ x, history[stream]? = some x ∧ frameStatus host x.frame = START ∧ x.effect = .fopen true

/-- What was written or flushed for a frame is a stream opened before it,
and a data or END frame without one is refused. -/
structure StreamUsed (host : Host) (before : List Exchange) (x : Exchange) : Prop where
  written : ∀ stream bytes, x.effect = .fwrite stream bytes → Opened host before stream
  flushed : ∀ stream ok, x.effect = .fflush stream ok →
    ∃ i, stream = some i ∧ Opened host before i
  refused : frameStatus host x.frame = ING ∨ frameStatus host x.frame = END →
    (∀ i, ¬ Opened host before i) → x.reply = FAIL

def StreamsOpened (host : Host) : Progress RecvState Int Fault → Prop
  | .running t => EachEntry (StreamUsed host) t.history
  | .returned t _ => EachEntry (StreamUsed host) t.history
  | .faulted _ => False

/-- A data frame that passes the sum and an END find a file open. -/
def FileOpenFor (host : Host) (s : RecvState) (frame : EthernetFrame) : Prop :=
  (frameStatus host frame = ING → (dataLen host frame).toNat ≤ TRANSMITSIZE ∧
    (dataSum host frame = sumBytes (payload host frame) → s.fp ≠ none)) ∧
  (frameStatus host frame = END → s.fp ≠ none)

/-- `fp` is the stream of a START of this run, and NULL only before one. -/
structure TracksStream (host : Host) (s : RecvState) : Prop where
  used : EachEntry (StreamUsed host) s.history
  isOpen : ∀ file, s.fp = some file → Opened host s.history file.id
  isNull : s.fp = none → ∀ i, ¬ Opened host s.history i

section Streams

variable {host : Host} {s : RecvState} {ev : RecvEvent} {frame : EthernetFrame}

theorem opened_concat {history : List Exchange} {x : Exchange} {i : Nat} :
    Opened host (history ++ [x]) i ↔ Opened host history i ∨
      (i = history.length ∧ frameStatus host x.frame = START ∧ x.effect = .fopen true) := by
  -- before the new entry, at it, or past the end
  rcases Nat.lt_trichotomy i history.length with hlt | heq | hgt
  · simp [Opened, List.getElem?_append_left hlt, Nat.ne_of_lt hlt]
  · subst heq
    simp [Opened]
  · have hout : history.length ≤ i := Nat.le_of_lt hgt
    have hout' : [x].length ≤ i - history.length := by
      simp only [List.length_singleton]
      omega
    simp [Opened, List.getElem?_append_right hout, List.getElem?_eq_none hout',
      List.getElem?_eq_none hout, Nat.ne_of_gt hgt]

section

variable {before : List Exchange} {stat : BitVec 32}

theorem streamUsed_start {ok : Bool} (hst : frameStatus host frame = START) :
    StreamUsed host before ⟨frame, .fopen ok, stat⟩ where
  written := nofun
  flushed := nofun
  refused := by
    rintro (hing | hend)
    · exact absurd (hing.symm.trans hst) ING_ne_START
    · exact absurd (hend.symm.trans hst) END_ne_START

theorem streamUsed_none
    (hreply : frameStatus host frame = ING ∨ frameStatus host frame = END → stat = FAIL) :
    StreamUsed host before ⟨frame, .none, stat⟩ where
  written := nofun
  flushed := nofun
  refused := fun hst _ => hreply hst

theorem streamUsed_fwrite {stream : Nat} {bytes : List Byte} (h : Opened host before stream) :
    StreamUsed host before ⟨frame, .fwrite stream bytes, stat⟩ where
  written := by
    intro _ _ he
    cases he
    exact h
  flushed := nofun
  refused := fun _ hnone => absurd h (hnone stream)

theorem streamUsed_fflush_iff {ok : Bool} (h : TracksStream host s) :
    StreamUsed host s.history ⟨frame, .fflush (s.fp.map OutFile.id) ok, stat⟩
      ↔ s.fp ≠ none := by
  constructor
  · intro hused hnull
    obtain ⟨i, hi, _⟩ := hused.flushed _ _ rfl
    rw [hnull] at hi
    cases hi
  · intro hopen
    obtain ⟨file, hfile⟩ := Option.ne_none_iff_exists'.mp hopen
    have hid := h.isOpen file hfile
    refine ⟨nofun, ?_, fun _ hnone => absurd hid (hnone file.id)⟩
    intro _ _ he
    cases he
    exact ⟨file.id, by rw [hfile]; rfl, hid⟩

end

/-- After an END only a stream that was opened was flushed exactly when one
was open. -/
theorem TracksStream.flushed_iff (h : TracksStream host s) {ok sendto : Bool}
    {stat : BitVec 32} {flushed fclose : Nat} {r : Int} :
    StreamsOpened host (.returned (((flushFile { s with frame } ok flushed).state.reply host
        (.fflush (s.fp.map OutFile.id) ok) stat sendto).quit fclose) r) ↔ s.fp ≠ none := by
  have hused : StreamUsed host s.history
      ⟨frame, .fflush (s.fp.map OutFile.id) ok, stat⟩ ↔ s.fp ≠ none := streamUsed_fflush_iff h
  rw [← hused, StreamsOpened, RecvState.quit_history, RecvState.reply_history,
    flushFile_history, flushFile_frame]
  exact eachEntry_concat.trans (and_iff_right h.used)

theorem fileOpenFor_ing_iff (hst : frameStatus host frame = ING) :
    FileOpenFor host s frame ↔ (dataLen host frame).toNat ≤ TRANSMITSIZE ∧
      (dataSum host frame = sumBytes (payload host frame) → s.fp ≠ none) := by
  simp [FileOpenFor, hst, END_ne_ING.symm]

theorem fileOpenFor_end_iff (hst : frameStatus host frame = END) :
    FileOpenFor host s frame ↔ s.fp ≠ none := by
  simp [FileOpenFor, hst, END_ne_ING]

theorem fileOpenFor_start (hst : frameStatus host frame = START) : FileOpenFor host s frame := by
  constructor
  · intro hing
    exact absurd (hing.symm.trans hst) ING_ne_START
  · intro hend
    exact absurd (hend.symm.trans hst) END_ne_START

theorem fileOpenFor_other (hing : frameStatus host frame ≠ ING)
    (hend : frameStatus host frame ≠ END) : FileOpenFor host s frame :=
  ⟨fun h => absurd h hing, fun h => absurd h hend⟩

theorem TracksStream.fileOpenFor_iff (h : TracksStream host s) {p : Progress RecvState Int Fault}
    (hp : Pass host s ev p) :
    StreamsOpened host p ↔ ∀ frame, received host s ev = some frame → FileOpenFor host s frame := by
  cases hp with
  | notReceived hr => exact iff_of_true h.used (by simp [hr])
  | created hr hst hopen =>
      rw [forall_received hr]
      refine iff_of_true ?_ (fileOpenFor_start hst)
      simp only [StreamsOpened, RecvState.reply_history, createFile_history, createFile_frame]
      exact eachEntry_concat.mpr ⟨h.used, streamUsed_start hst⟩
  | notCreated hr hst hopen =>
      rw [forall_received hr]
      refine iff_of_true ?_ (fileOpenFor_start hst)
      simp only [StreamsOpened, RecvState.quit_history, RecvState.reply_history,
        createFile_history, createFile_frame]
      exact eachEntry_concat.mpr ⟨h.used, streamUsed_start hst⟩
  | overrun hr hst hlen =>
      rw [forall_received hr, fileOpenFor_ing_iff hst]
      exact iff_of_false id fun hok => absurd hok.1 (Nat.not_le_of_lt hlen)
  | badSum hr hst hlen hsum =>
      rw [forall_received hr, fileOpenFor_ing_iff hst]
      refine iff_of_true ?_ ⟨hlen, fun he => absurd he hsum⟩
      exact eachEntry_concat.mpr ⟨h.used, streamUsed_none fun _ => rfl⟩
  | notOpen hr hst hlen hsum hfp =>
      rw [forall_received hr, fileOpenFor_ing_iff hst]
      exact iff_of_false id fun hok => hok.2 hsum hfp
  | appended hr hst hlen hsum hfp hwrite =>
      rw [forall_received hr, fileOpenFor_ing_iff hst]
      refine iff_of_true ?_ ⟨hlen, fun _ => by simp [hfp]⟩
      exact eachEntry_concat.mpr ⟨h.used, streamUsed_fwrite (h.isOpen _ hfp)⟩
  | cutShort hr hst hlen hsum hfp hwrite =>
      rw [forall_received hr, fileOpenFor_ing_iff hst]
      refine iff_of_true ?_ ⟨hlen, fun _ => by simp [hfp]⟩
      exact eachEntry_concat.mpr ⟨h.used, streamUsed_fwrite (h.isOpen _ hfp)⟩
  | flushed hr hst hflush =>
      rw [forall_received hr, fileOpenFor_end_iff hst]
      exact h.flushed_iff
  | notFlushed hr hst hflush =>
      rw [forall_received hr, fileOpenFor_end_iff hst]
      exact h.flushed_iff
  | unknown hr hstart hing hend =>
      rw [forall_received hr]
      refine iff_of_true ?_ (fileOpenFor_other hing hend)
      refine eachEntry_concat.mpr ⟨h.used, streamUsed_none ?_⟩
      intro hst
      exact absurd hst (not_or_intro hing hend)

/-- The stream stays the one of a START, whether a new file was opened or
the same one is kept. -/
theorem TracksStream.kept (h : TracksStream host s) {t : RecvState} {effect : Effect}
    {stat : BitVec 32} {sendto : Bool} (hhist : t.history = s.history)
    (hid : t.fp.map OutFile.id = s.fp.map OutFile.id)
    (hnew : effect ≠ .fopen true) (hused : StreamUsed host s.history ⟨t.frame, effect, stat⟩) :
    TracksStream host (t.reply host effect stat sendto) where
  used := by
    rw [RecvState.reply_history, hhist]
    exact eachEntry_concat.mpr ⟨h.used, hused⟩
  isOpen := by
    intro file hfile
    rw [RecvState.reply_fp] at hfile
    rw [hfile] at hid
    obtain ⟨old, hold, hsame⟩ := Option.map_eq_some_iff.mp hid.symm
    rw [RecvState.reply_history, hhist, opened_concat, ← hsame]
    exact .inl (h.isOpen old hold)
  isNull := by
    intro hnull i hopen
    rw [RecvState.reply_fp] at hnull
    rw [hnull] at hid
    rw [RecvState.reply_history, hhist, opened_concat] at hopen
    rcases hopen with hold | ⟨_, _, heff⟩
    · exact h.isNull (Option.map_eq_none_iff.mp hid.symm) i hold
    · exact hnew heff

theorem TracksStream.pass (h : TracksStream host s) {t : RecvState}
    (hp : Pass host s ev (.running t)) : TracksStream host t := by
  cases hp with
  | @created frame hr hst hopen =>
      have hhist : ((createFile host { s with frame } true).state.reply host (.fopen true)
          SUCCESS ev.sendto).history = s.history ++ [⟨frame, .fopen true, SUCCESS⟩] := rfl
      constructor
      · rw [hhist]
        exact eachEntry_concat.mpr ⟨h.used, streamUsed_start hst⟩
      · intro file hfile
        rw [hhist, opened_concat]
        cases hfile
        exact .inr ⟨rfl, hst, rfl⟩
      · intro hnull
        cases hnull
  | appended hr hst hlen hsum hfp hwrite =>
      refine h.kept rfl ?_ nofun (streamUsed_fwrite (h.isOpen _ hfp))
      simp [hfp]
  | unknown hr hstart hing hend =>
      refine h.kept rfl rfl nofun (streamUsed_none ?_)
      intro hst
      exact absurd hst (not_or_intro hing hend)

theorem tracksStream_init (stack : EthernetFrame) :
    TracksStream host (RecvState.init stack) where
  used := eachEntry_nil
  isOpen := by
    intro file hfile
    cases hfile
  isNull := by
    intro _ i hopen
    obtain ⟨x, hx, _⟩ := hopen
    simp [RecvState.init] at hx

end Streams

theorem streams_pass_iff (host : Host) (s : RecvState) (ev : RecvEvent)
    (h : TracksStream host s) :
    StreamsOpened host (fileRecvPass host s ev) ↔
      ∀ frame, received host s ev = some frame → FileOpenFor host s frame :=
  h.fileOpenFor_iff (fileRecvPass_spec host s ev)

/-- **Only streams a START opened are written and flushed, exactly when no
data frame and no END comes before a START.** Nothing but the `quit` path
tests `fp`. -/
theorem streams_opened_iff (host : Host) (stack : EthernetFrame) (evs : List RecvEvent) :
    AfterEveryTurn (fileRecvPass host) (StreamsOpened host) (RecvState.init stack) evs ↔
      BeforeEveryTurn (fileRecvPass host) (fun s ev =>
        ∀ frame, received host s ev = some frame → FileOpenFor host s frame)
        (RecvState.init stack) evs := by
  refine afterEveryTurn_iff ?_ (streams_pass_iff host) (tracksStream_init stack) evs
  intro s ev t h _ hrun
  exact h.pass (hrun ▸ fileRecvPass_spec host s ev)

/-- An END frame arrives. -/
def endOnly : RecvEvent := deliver (framed (beBytes 4 END.toNat))

/-- With no file open it flushes NULL and is answered with SUCCESS. -/
theorem end_without_start_acked :
    ¬ AfterEveryTurn (fileRecvPass .little) (StreamsOpened .little) (RecvState.init blankFrame)
      [endOnly] := by
  have hr : received .little (RecvState.init blankFrame) endOnly
      = some (blankFrame.fill (framed (beBytes 4 END.toNat))) := received_of_sent rfl
  refine not_afterEveryTurn (streams_pass_iff .little) (tracksStream_init blankFrame) ?_ []
  intro hok
  exact (hok _ hr).2 (frameStatus_framed .little END) rfl

end BeEasy.FileTransmit
