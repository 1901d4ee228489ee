import BeEasy.CVerif.StopAndWait
import BeEasy.FileTransmit.ReceiverPass
import BeEasy.FileTransmit.SenderTurn
import Mathlib.Data.List.Forall2

/-!
# FileTransmit — Peers

`fileSend` and `fileRecv` run against each other, with a first-in first-out
channel in each direction that may lose frames. A step is a turn of the
sender, a pass of the receiver, or a loss (`Step`); the outcomes of the
sender's calls are free, the receiver's file operations succeed.

`Sim` relates the two programs to the stop-and-wait exchange: which
requests the sender has issued follows from where it stands (`At`), what is
in the file follows from the requests served (`Serving`), and the frames in
the channels carry the messages on their way. `step_simulates` is the
simulation.
-/

namespace BeEasy.FileTransmit

open CVerif
open CVerif.StopAndWait (Conf Phase)

/-- The two hosts and the file to transfer. -/
structure Setting where
  sendHost : Host
  recvHost : Host
  content : List Byte

structure Peers where
  sender : Progress SendState Int Fault
  receiver : Progress RecvState Int Fault
  toRecv : List Packet
  toSend : List Packet

/-- The sender stands at a `recvAck`. -/
def SendPc.Waits : SendPc → Prop
  | .reqAck _ _ | .dataAck _ _ | .endAck => True
  | .setup | .loop _ => False

/-- The file that is opened is the one to transfer. -/
def SendEvent.Reads (S : Setting) (ev : SendEvent) : Prop :=
  ∀ content, ev.fopen = some content → content = S.content

/-- The receiver's file operations succeed. -/
structure RecvEvent.FilesOk (ev : RecvEvent) : Prop where
  fopen : ev.fopen = true
  fwrite : TRANSMITSIZE ≤ ev.fwrite
  fflush : ev.fflush = true

/-- The packets a peer has sent so far. -/
def sentBy : Progress SendState Int Fault → List Packet
  | .running s => s.sent
  | .returned s _ => s.sent
  | .faulted _ => []

def acksBy : Progress RecvState Int Fault → List Packet
  | .running r => r.sent
  | .returned r _ => r.sent
  | .faulted _ => []

/-- A turn of the sender: what it sends goes into the channel. -/
def Peers.senderMoves (S : Setting) (p : Peers) (s : SendState) (ev : SendEvent) : Peers :=
  let q := fileSendTurn S.sendHost s ev
  { p with sender := q, toRecv := p.toRecv ++ (sentBy q).drop s.sent.length }

def Peers.receiverMoves (S : Setting) (p : Peers) (r : RecvState) (ev : RecvEvent) : Peers :=
  let q := fileRecvPass S.recvHost r ev
  { p with receiver := q, toSend := p.toSend ++ (acksBy q).drop r.sent.length }

/-- The steps of the two programs and of the channels. A receive takes the
oldest frame, or fails. -/
inductive Step (S : Setting) : Peers → Peers → Prop
  | sender {p s ev} (hs : p.sender = .running s) (hfile : ev.Reads S)
      (hrecv : ev.recvfrom = none) : Step S p (p.senderMoves S s ev)
  | senderReceives {p s ev pkt rest} (hs : p.sender = .running s) (hwait : s.pc.Waits)
      (hq : p.toSend = pkt :: rest) (hrecv : ev.recvfrom = some pkt) :
      Step S p ({ p with toSend := rest }.senderMoves S s ev)
  | receiver {p r ev} (hr : p.receiver = .running r) (hrecv : ev.recvfrom = none) :
      Step S p (p.receiverMoves S r ev)
  | receiverReceives {p r ev pkt rest} (hr : p.receiver = .running r) (hok : ev.FilesOk)
      (hq : p.toRecv = pkt :: rest) (hrecv : ev.recvfrom = some pkt) :
      Step S p ({ p with toRecv := rest }.receiverMoves S r ev)
  | loseFrame {p} (i : Nat) : Step S p { p with toRecv := p.toRecv.eraseIdx i }
  | loseAck {p} (i : Nat) : Step S p { p with toSend := p.toSend.eraseIdx i }

/-- Both programs are called, nothing is on its way. -/
def Peers.init (filename filepath : List Byte) (toAddr fromAddr : Mac) (stack : EthernetFrame) :
    Peers where
  sender := .running (SendState.init filename filepath toAddr fromAddr)
  receiver := .running (RecvState.init stack)
  toRecv := []
  toSend := []

/-! ## What the sender has issued -/

/-- START and the data frames for these chunks. -/
def script (attr : FileAttr) (chunks : List (List Byte)) : List Request :=
  .start attr :: chunks.map .data

/-- The chunk of a request that was answered with SUCCESS. -/
def ackedChunk : Request × Reply → Option (List Byte)
  | (.data chunk, .status word) => if word = SUCCESS then some chunk else none
  | _ => none

def SendState.acked (s : SendState) : List (List Byte) := s.history.filterMap ackedChunk

/-- The stream has delivered these chunks. -/
structure HasRead (content : List Byte) (fp : InStream) (chunks : List (List Byte)) : Prop where
  valid : fp.Valid
  source : fp.content = content
  chunks : chunks.flatten = content.take fp.pos

/-- Where the sender stands, what it has issued, and whether it waits. -/
inductive At (content : List Byte) : SendState → List Request → Bool → Prop
  | setup {s} (hpc : s.pc = .setup) (hack : s.acked = []) : At content s [] false
  | reqAck {s attr} (hpc : s.pc = .reqAck attr (InStream.ofContent content))
      (hack : s.acked = []) : At content s (script attr []) true
  | loop {s attr chunks fp} (hpc : s.pc = .loop fp) (hread : HasRead content fp chunks)
      (hack : s.acked = chunks) : At content s (script attr chunks) false
  | dataAck {s attr chunks chunk fp} (hpc : s.pc = .dataAck chunk fp)
      (hread : HasRead content fp (chunks ++ [chunk])) (hack : s.acked = chunks) :
      At content s (script attr (chunks ++ [chunk])) true
  | endAck {s attr chunks} (hpc : s.pc = .endAck) (hread : chunks.flatten = content)
      (hack : s.acked = chunks) : At content s (script attr chunks ++ [.finish]) true
  | done {s attr chunks} (hpc : s.pc = .endAck) (hread : chunks.flatten = content)
      (hack : s.acked = chunks) : At content s (script attr chunks ++ [.finish]) false

/-- The same of the program as a whole; END is answered only at its end. -/
def Sending (content : List Byte) (issued : List Request) (waiting : Bool) :
    Progress SendState Int Fault → Prop
  | .running s => At content s issued waiting ∧ (s.pc = .endAck → waiting = true)
  | .returned s _ => At content s issued waiting
  | .faulted _ => False

section Sender

variable {content : List Byte} {s : SendState} {ev : SendEvent} {issued : List Request}
  {waiting : Bool} {host : Host} {q : Progress SendState Int Fault}

theorem acked_record (request : Request) (reply : Reply) :
    (s.record request reply).acked = s.acked ++ (ackedChunk (request, reply)).toList := by
  rw [SendState.acked, SendState.record_history, List.filterMap_append]
  cases h : ackedChunk (request, reply) <;> simp [SendState.acked, h]

theorem hasRead_ofContent : HasRead content (InStream.ofContent content) [] where
  valid := InStream.valid_ofContent content
  source := rfl
  chunks := by simp [InStream.ofContent]

theorem HasRead.fread {fp : InStream} {chunks : List (List Byte)}
    (h : HasRead content fp chunks) (size : Nat) (err : Option Nat) :
    HasRead content (fp.fread size err).2 (chunks ++ [(fp.fread size err).1]) where
  valid := h.valid.fread size err
  source := by rw [InStream.fread_content, h.source]
  chunks := by
    rw [List.flatten_append, h.chunks, ← h.source]
    simpa using fp.take_fread size err

/-- After the end of the file all of it was delivered. -/
theorem HasRead.all {fp : InStream} {chunks : List (List Byte)}
    (h : HasRead content fp chunks) (heof : fp.eof = true) : chunks.flatten = content := by
  have hend : fp.pos = content.length := by rw [h.valid.atEnd heof, h.source]
  rw [h.chunks, hend, List.take_length]

/-- A frame that carries a request. -/
def Carries (host : Host) (pkt : Packet) (request : Request) : Prop :=
  request.Fits ∧ ∃ toAddr fromAddr,
    pkt = header host toAddr fromAddr FILETRANSMIT ++ request.image host

/-- A frame that carries an ack; the receiver has only SUCCESS to send. -/
def CarriesAck (host : Host) (pkt : Packet) (word : BitVec 32) : Prop :=
  word = SUCCESS ∧ ∃ toAddr fromAddr,
    pkt = header host toAddr fromAddr FILETRANSMIT ++ beBytes 4 word.toNat

theorem At.congr {t : SendState} (h : At content s issued waiting) (hpc : t.pc = s.pc)
    (hack : t.acked = s.acked) : At content t issued waiting := by
  cases h with
  | setup hpc' hack' => exact .setup (hpc.trans hpc') (hack.trans hack')
  | reqAck hpc' hack' => exact .reqAck (hpc.trans hpc') (hack.trans hack')
  | loop hpc' hread hack' => exact .loop (hpc.trans hpc') hread (hack.trans hack')
  | dataAck hpc' hread hack' => exact .dataAck (hpc.trans hpc') hread (hack.trans hack')
  | endAck hpc' hread hack' => exact .endAck (hpc.trans hpc') hread (hack.trans hack')
  | done hpc' hread hack' => exact .done (hpc.trans hpc') hread (hack.trans hack')

/-! Where the sender stands says what it has issued. -/

theorem At.of_setup (h : At content s issued waiting) (hpc : s.pc = .setup) :
    issued = [] ∧ waiting = false ∧ s.acked = [] := by
  cases h with
  | setup _ hack => exact ⟨rfl, rfl, hack⟩
  | reqAck hpc' _ | loop hpc' _ _ | dataAck hpc' _ _ | endAck hpc' _ _ | done hpc' _ _ =>
      exact nomatch hpc.symm.trans hpc'

theorem At.of_reqAck {attr : FileAttr} {fp : InStream} (h : At content s issued waiting)
    (hpc : s.pc = .reqAck attr fp) : issued = script attr [] ∧ waiting = true ∧
      fp = InStream.ofContent content ∧ s.acked = [] := by
  cases h with
  | reqAck hpc' hack =>
      cases hpc.symm.trans hpc'
      exact ⟨rfl, rfl, rfl, hack⟩
  | setup hpc' _ | loop hpc' _ _ | dataAck hpc' _ _ | endAck hpc' _ _ | done hpc' _ _ =>
      exact nomatch hpc.symm.trans hpc'

theorem At.of_loop {fp : InStream} (h : At content s issued waiting) (hpc : s.pc = .loop fp) :
    ∃ attr, issued = script attr s.acked ∧ waiting = false ∧ HasRead content fp s.acked := by
  cases h with
  | loop hpc' hread hack =>
      cases hpc.symm.trans hpc'
      cases hack
      exact ⟨_, rfl, rfl, hread⟩
  | setup hpc' _ | reqAck hpc' _ | dataAck hpc' _ _ | endAck hpc' _ _ | done hpc' _ _ =>
      exact nomatch hpc.symm.trans hpc'

theorem At.of_dataAck {chunk : List Byte} {fp : InStream} (h : At content s issued waiting)
    (hpc : s.pc = .dataAck chunk fp) : ∃ attr, issued = script attr (s.acked ++ [chunk]) ∧
      waiting = true ∧ HasRead content fp (s.acked ++ [chunk]) := by
  cases h with
  | dataAck hpc' hread hack =>
      cases hpc.symm.trans hpc'
      cases hack
      exact ⟨_, rfl, rfl, hread⟩
  | setup hpc' _ | reqAck hpc' _ | loop hpc' _ _ | endAck hpc' _ _ | done hpc' _ _ =>
      exact nomatch hpc.symm.trans hpc'

theorem At.of_endAck (h : At content s issued waiting) (hpc : s.pc = .endAck) :
    ∃ attr, issued = script attr s.acked ++ [.finish] ∧ s.acked.flatten = content := by
  cases h with
  | endAck _ hread hack | done _ hread hack =>
      cases hack
      exact ⟨_, rfl, hread⟩
  | setup hpc' _ | reqAck hpc' _ | loop hpc' _ _ | dataAck hpc' _ _ =>
      exact nomatch hpc.symm.trans hpc'

theorem script_concat (attr : FileAttr) (chunks : List (List Byte)) (chunk : List Byte) :
    script attr chunks ++ [.data chunk] = script attr (chunks ++ [chunk]) := by
  simp [script]

/-- A request that is asked for is issued, by a sender that did not wait. -/
theorem At.issue {t : SendState} {request : Request} {pc : SendPc}
    (h : At content s issued waiting) (hask : Asks s ev t request pc)
    (hfile : ∀ c, ev.fopen = some c → c = content) :
    waiting = false ∧ At content (t.issue host request pc) (issued ++ [request]) true := by
  cases hask with
  | start hpc hfrom harp hto hopen =>
      obtain ⟨rfl, hidle, hack⟩ := h.of_setup hpc
      rw [hfile _ hopen]
      exact ⟨hidle, .reqAck rfl hack⟩
  | data hpc heof =>
      obtain ⟨attr, rfl, hidle, hread⟩ := h.of_loop hpc
      rw [script_concat]
      exact ⟨hidle, .dataAck rfl (hread.fread TRANSMITSIZE ev.fread) rfl⟩
  | finish hpc heof =>
      obtain ⟨attr, rfl, hidle, hread⟩ := h.of_loop hpc
      exact ⟨hidle, .endAck rfl (hread.all heof) rfl⟩

theorem Asks.sent {t : SendState} {request : Request} {pc : SendPc}
    (hask : Asks s ev t request pc) : t.sent = s.sent ∧ t.pc = s.pc ∧ t.history = s.history := by
  cases hask with
  | start => exact ⟨rfl, rfl, rfl⟩
  | data => exact ⟨rfl, rfl, rfl⟩
  | finish => exact ⟨rfl, rfl, rfl⟩

theorem Asks.carries {t : SendState} {request : Request} {pc : SendPc}
    (hask : Asks s ev t request pc) : Carries host (requestPacket host t request) request := by
  refine ⟨?_, t.toAddr, t.fromAddr, rfl⟩
  cases hask with
  | start => trivial
  | data => exact InStream.fread_length_le _ _ _
  | finish => trivial

/-- A reply other than SUCCESS changes nothing in what was acknowledged. -/
theorem ackedChunk_refused (request : Request) {reply : Reply} (h : reply ≠ .status SUCCESS) :
    ackedChunk (request, reply) = none := by
  unfold ackedChunk
  split
  next hdata =>
    cases hdata
    exact if_neg (fun he => h (by rw [he]))
  next => rfl

theorem acked_refused {request : Request} {reply : Reply} (h : reply ≠ .status SUCCESS) :
    (s.record request reply).acked = s.acked := by
  rw [acked_record, ackedChunk_refused request h, Option.toList_none, List.append_nil]

/-- A sender that gives up leaves what it issued as it was. -/
theorem At.giveUp {t : SendState} {request : Request} {reply : Reply}
    (h : At content s issued waiting) (hpc : t.pc = s.pc) (hhist : t.history = s.history)
    (hreply : reply ≠ .status SUCCESS) : At content (t.record request reply) issued waiting := by
  refine h.congr hpc ?_
  rw [acked_refused hreply, SendState.acked, SendState.acked, hhist]

theorem replyTo_none (hrecv : ev.recvfrom = none) : replyTo host ev = .notReceived := by
  simp only [replyTo, hrecv, recvEtherFrame]
  rfl

theorem Asks.not_waits {t : SendState} {request : Request} {pc : SendPc}
    (hask : Asks s ev t request pc) : ¬ s.pc.Waits := by
  cases hask with
  | start hpc => simp [SendPc.Waits, hpc]
  | data hpc => simp [SendPc.Waits, hpc]
  | finish hpc => simp [SendPc.Waits, hpc]

/-- A sender that waits for no ack asks for its next request, or fails to
get that far. -/
theorem Turn.idle (hturn : Turn host s ev q) (hidle : ¬ s.pc.Waits) :
    (q = .returned s (-1) ∧ (ev.getLocalMacAddr = none ∨ ev.getMacFromArp = false ∨
      ev.macAton = none ∨ ev.fopen = none)) ∨
    ∃ t request pc, Asks s ev t request pc ∧
      (ev.sendto = true ∧ q = .running (t.issue host request pc) ∨
        ev.sendto = false ∧ q = .returned (t.record request .notSent) (-1)) := by
  cases hturn with
  | noSetup hpc hfail => exact .inl ⟨rfl, hfail⟩
  | issued hask hsend => exact .inr ⟨_, _, _, hask, .inl ⟨hsend, rfl⟩⟩
  | notIssued hask hsend => exact .inr ⟨_, _, _, hask, .inr ⟨hsend, rfl⟩⟩
  | startAcked hpc _ | startRefused hpc _ | chunkAcked hpc _ | chunkRefused hpc _ | finished hpc =>
      simp [SendPc.Waits, hpc] at hidle

/-- A SUCCESS moves a waiting sender on, or ends its run. -/
theorem At.accept (h : At content s issued waiting) (hwait : s.pc.Waits)
    (hreply : replyTo host ev = .status SUCCESS) (hturn : Turn host s ev q) :
    sentBy q = s.sent ∧ Sending content issued false q ∧
      ∀ t r, q = .returned t r → r = SUCCESS.toInt ∧ t.pc = .endAck := by
  cases hturn with
  | noSetup hpc hfail => simp [SendPc.Waits, hpc] at hwait
  | issued hask hsend => exact absurd hwait hask.not_waits
  | notIssued hask hsend => exact absurd hwait hask.not_waits
  | startAcked hpc hr =>
      obtain ⟨rfl, _, rfl, hack⟩ := h.of_reqAck hpc
      refine ⟨rfl, ⟨.loop rfl hasRead_ofContent ?_, nofun⟩, nofun⟩
      exact (acked_record _ _).trans (by rw [hack]; rfl)
  | startRefused hpc hr => exact absurd hreply hr
  | chunkAcked hpc hr =>
      obtain ⟨attr, rfl, _, hread⟩ := h.of_dataAck hpc
      exact ⟨rfl, ⟨.loop rfl hread (acked_record _ _), nofun⟩, nofun⟩
  | chunkRefused hpc hr => exact absurd hreply hr
  | finished hpc =>
      obtain ⟨attr, rfl, hread⟩ := h.of_endAck hpc
      have hack : (s.record .finish (replyTo host ev)).acked = s.acked := by
        rw [acked_record]
        exact List.append_nil _
      refine ⟨rfl, .done hpc hread hack, ?_⟩
      intro t r heq
      cases heq
      rw [hreply]
      exact ⟨rfl, hpc⟩

/-- A receive that fails ends the sender's run. -/
theorem At.noReply (h : At content s issued waiting) (hwait : s.pc.Waits)
    (hrecv : ev.recvfrom = none) (hturn : Turn host s ev q) :
    sentBy q = s.sent ∧ Sending content issued waiting q := by
  have hnone : replyTo host ev = .notReceived := replyTo_none hrecv
  have hreply : replyTo host ev ≠ .status SUCCESS := by
    rw [hnone]
    nofun
  cases hturn with
  | noSetup hpc hfail => simp [SendPc.Waits, hpc] at hwait
  | issued hask hsend => exact absurd hwait hask.not_waits
  | notIssued hask hsend => exact absurd hwait hask.not_waits
  | startAcked hpc hr => exact absurd hr hreply
  | startRefused hpc hr => exact ⟨rfl, h.giveUp rfl rfl hreply⟩
  | chunkAcked hpc hr => exact absurd hr hreply
  | chunkRefused hpc hr => exact ⟨rfl, h.giveUp rfl rfl hreply⟩
  | finished hpc => exact ⟨rfl, h.giveUp rfl rfl hreply⟩

end Sender

/-! ## What the receiver has served -/

def Request.chunk? : Request → Option (List Byte)
  | .data chunk => some chunk
  | _ => none

/-- The file after these requests. -/
def fileOf (served : List Request) : List Byte := (served.filterMap Request.chunk?).flatten

/-- What the receiver has served while it runs: nothing, or a START and some
data frames. -/
def Serving (served : List Request) : Progress RecvState Int Fault → Prop
  | .running r => (served = [] ∧ r.fp = none) ∨ ∃ attr chunks file,
      served = script attr chunks ∧ r.fp = some file ∧ file.content = chunks.flatten
  | .returned r _ => r.output = fileOf served
  | .faulted _ => False

/-- The requests of one transfer, up to some point. -/
def Scripted (issued : List Request) : Prop :=
  issued = [] ∨ ∃ attr chunks, issued = script attr chunks ∨ issued = script attr chunks ++ [.finish]

section Receiver

variable {host sender : Host} {r : RecvState} {ev : RecvEvent} {pkt : Packet}
  {served : List Request} {request : Request}

theorem fileOf_script (attr : FileAttr) (chunks : List (List Byte)) :
    fileOf (script attr chunks) = chunks.flatten := by
  show ((chunks.map Request.data).filterMap Request.chunk?).flatten = chunks.flatten
  rw [List.filterMap_map]
  exact congrArg List.flatten List.filterMap_some

theorem fileOf_concat_finish (served : List Request) :
    fileOf (served ++ [.finish]) = fileOf served := by
  simp [fileOf, Request.chunk?]

theorem Serving.output (h : Serving served (.running r)) : r.output = fileOf served := by
  rcases h with ⟨rfl, hfp⟩ | ⟨attr, chunks, file, rfl, hfp, hfile⟩
  · rw [RecvState.output, hfp]
    rfl
  · rw [RecvState.output, hfp, fileOf_script]
    exact hfile

theorem At.scripted {content : List Byte} {s : SendState} {issued : List Request} {waiting : Bool}
    (h : At content s issued waiting) : Scripted issued := by
  cases h with
  | setup => exact .inl rfl
  | reqAck | loop | dataAck => exact .inr ⟨_, _, .inl rfl⟩
  | endAck | done => exact .inr ⟨_, _, .inr rfl⟩

theorem Scripted.first (h : Scripted [request]) : ∃ attr, request = .start attr := by
  rcases h with hnil | ⟨attr, chunks, hscript | hscript⟩
  · cases hnil
  · exact ⟨attr, (List.cons.inj hscript).1⟩
  · exact ⟨attr, (List.cons.inj hscript).1⟩

theorem Scripted.next {attr : FileAttr} {chunks : List (List Byte)}
    (h : Scripted (script attr chunks ++ [request])) :
    (∃ chunk, request = .data chunk) ∨ request = .finish := by
  rcases h with hnil | ⟨attr', chunks', hscript | hscript⟩
  · simp at hnil
  · rcases List.eq_nil_or_concat chunks' with rfl | ⟨before, chunk, rfl⟩
    · simp [script] at hscript
    · rw [List.concat_eq_append, ← script_concat] at hscript
      exact .inl ⟨chunk, by simpa using (List.append_inj' hscript rfl).2⟩
  · exact .inr (by simpa using (List.append_inj' hscript rfl).2)

/-- What arrives of a request: its bytes, at the front of `data`. -/
theorem received_request (host : Host) (r : RecvState) (hcarry : Carries sender pkt request)
    (hrecv : ev.recvfrom = some pkt) : ∃ frame rest,
    received host r ev = some frame ∧ frame.data = request.image sender ++ rest := by
  obtain ⟨hfits, toAddr, fromAddr, rfl⟩ := hcarry
  exact ⟨_, _, received_of_sent hrecv, r.frame.data_fill (length_header ..)
    (length_image_le sender hfits)⟩

theorem received_start (host : Host) (r : RecvState) {attr : FileAttr}
    (hcarry : Carries sender pkt (.start attr)) (hrecv : ev.recvfrom = some pkt) :
    ∃ frame rest, received host r ev = some frame ∧ frame.data = attr.image sender ++ rest ∧
      frameStatus host frame = START := by
  obtain ⟨frame, rest, hr, hdata⟩ := received_request host r hcarry hrecv
  obtain ⟨rest', himage⟩ := image_start sender attr
  exact ⟨frame, rest, hr, hdata, frameStatus_eq (by rw [hdata, himage, List.append_assoc])⟩

/-- What a pass does for a request of the transfer: the file follows, an ack
of SUCCESS goes out unless `sendto` fails, and only END ends the run. -/
structure Served (host : Host) (r : RecvState) (ev : RecvEvent) (served : List Request)
    (request : Request) : Prop where
  serving : Serving (served ++ [request]) (fileRecvPass host r ev)
  acks : ∃ frame, acksBy (fileRecvPass host r ev)
    = r.sent ++ if ev.sendto then [ackPacket host frame SUCCESS] else []
  result : ∀ t v, fileRecvPass host r ev = .returned t v → v = 0 ∧ request = .finish

section Serve

variable (hok : ev.FilesOk) (hrecv : ev.recvfrom = some pkt)
include hok hrecv

/-! The pass, request by request. -/

theorem pass_of_start (host : Host) (r : RecvState) {attr : FileAttr}
    (hcarry : Carries sender pkt (.start attr)) :
    ∃ frame rest, frame.data = attr.image sender ++ rest ∧ fileRecvPass host r ev
      = .running ((createFile host { r with frame } true).state.reply host
          (.fopen true) SUCCESS ev.sendto) := by
  obtain ⟨frame, rest, hr, hdata, hst⟩ := received_start host r hcarry hrecv
  exact ⟨frame, rest, hdata, fileRecvPass_created hr hst hok.fopen⟩

theorem pass_of_data (host : Host) {chunk : List Byte} {file : OutFile}
    (hfp : r.fp = some file) (hcarry : Carries sender pkt (.data chunk)) :
    ∃ frame, fileRecvPass host r ev = .running (RecvState.reply host
      (RecvState.append { r with frame } file chunk ev.drained).count (.fwrite file.id chunk)
      SUCCESS ev.sendto) := by
  obtain ⟨frame, rest, hr, hdata⟩ := received_request host r hcarry hrecv
  have hfits : chunk.length ≤ TRANSMITSIZE := hcarry.1
  rw [image_data, List.append_assoc, List.append_assoc, List.append_assoc,
    List.append_assoc] at hdata
  have hlen : (dataLen host frame).toNat = chunk.length := by
    rw [dataLen_eq hdata, BitVec.toNat_ofNat]
    simp only [TRANSMITSIZE] at hfits
    omega
  have hchunk : payload host frame = chunk := by
    rw [payload_eq hdata, ← dataLen_eq hdata, hlen, List.take_left]
  have hsum : dataSum host frame = sumBytes (payload host frame) := by
    rw [dataSum_eq hdata, hchunk]
  have hpass := fileRecvPass_appended hr (frameStatus_eq hdata) (hlen ▸ hfits) hsum hfp
    (hlen ▸ Nat.le_trans hfits hok.fwrite)
  rw [hchunk] at hpass
  exact ⟨frame, hpass⟩

theorem pass_of_finish (host : Host) (r : RecvState) (hcarry : Carries sender pkt .finish) :
    ∃ frame, fileRecvPass host r ev = .returned
      (((flushFile { r with frame } true ev.flushed).state.reply host
        (.fflush (r.fp.map OutFile.id) true) SUCCESS ev.sendto).quit ev.fclose) 0 := by
  obtain ⟨frame, rest, hr, hdata⟩ := received_request host r hcarry hrecv
  rw [image_finish] at hdata
  exact ⟨frame, fileRecvPass_flushed hr (frameStatus_eq hdata) hok.fflush⟩

theorem served_start {attr : FileAttr} (hcarry : Carries sender pkt (.start attr)) :
    Served host r ev [] (.start attr) := by
  obtain ⟨frame, _, _, hpass⟩ := pass_of_start hok hrecv host r hcarry
  refine ⟨?_, ⟨frame, by rw [hpass]; rfl⟩, ?_⟩
  · rw [hpass]
    exact .inr ⟨attr, [], _, rfl, rfl, rfl⟩
  · intro t v heq
    rw [hpass] at heq
    cases heq

theorem served_data {attr : FileAttr} {chunks : List (List Byte)} {chunk : List Byte}
    {file : OutFile} (hfp : r.fp = some file) (hfile : file.content = chunks.flatten)
    (hcarry : Carries sender pkt (.data chunk)) :
    Served host r ev (script attr chunks) (.data chunk) := by
  obtain ⟨frame, hpass⟩ := pass_of_data hok hrecv host hfp hcarry
  refine ⟨?_, ⟨frame, by rw [hpass]; rfl⟩, ?_⟩
  · rw [hpass, script_concat]
    refine .inr ⟨attr, chunks ++ [chunk], _, rfl, rfl, ?_⟩
    simp [hfile]
  · intro t v heq
    rw [hpass] at heq
    cases heq

theorem served_finish {served : List Request} (h : Serving served (.running r))
    (hcarry : Carries sender pkt .finish) : Served host r ev served .finish := by
  obtain ⟨frame, hpass⟩ := pass_of_finish hok hrecv host r hcarry
  refine ⟨?_, ⟨frame, ?_⟩, ?_⟩
  · rw [hpass, Serving, fileOf_concat_finish, RecvState.quit_output, RecvState.reply_output,
      flushFile_output]
    exact h.output
  · rw [hpass, acksBy, RecvState.quit_sent, RecvState.reply, flushFile_sent, flushFile_frame]
  · intro t v heq
    rw [hpass] at heq
    cases heq
    exact ⟨rfl, rfl⟩

/-- **The receiver serves the next request of a transfer**, whichever it is. -/
theorem Serving.serve (h : Serving served (.running r)) (hnext : Scripted (served ++ [request]))
    (hcarry : Carries sender pkt request) : Served host r ev served request := by
  rcases h with ⟨rfl, hfp⟩ | ⟨attr, chunks, file, rfl, hfp, hfile⟩
  · obtain ⟨attr, rfl⟩ := Scripted.first hnext
    exact served_start hok hrecv hcarry
  · rcases hnext.next with ⟨chunk, rfl⟩ | rfl
    · exact served_data hok hrecv hfp hfile hcarry
    · exact served_finish hok hrecv (.inr ⟨attr, chunks, file, rfl, hfp, hfile⟩) hcarry

end Serve

/-- A receive that fails ends the receiver's run and leaves the file. -/
theorem Serving.fails (host : Host) (h : Serving served (.running r))
    (hrecv : ev.recvfrom = none) :
    Serving served (fileRecvPass host r ev) ∧ acksBy (fileRecvPass host r ev) = r.sent := by
  have hnone : received host r ev = none := by
    rw [received, hrecv]
    rfl
  rw [fileRecvPass_notReceived hnone]
  exact ⟨h.output, rfl⟩

end Receiver

/-! ## The simulation -/

/-- The two programs and the channels stand where the exchange does. -/
structure Sim (S : Setting) (p : Peers) (c : Conf Request (BitVec 32)) : Prop where
  sender : Sending S.content c.issued c.waiting p.sender
  receiver : Serving c.served p.receiver
  requests : List.Forall₂ (Carries S.sendHost) p.toRecv c.requests
  replies : List.Forall₂ (CarriesAck S.recvHost) p.toSend c.replies

section Simulation

variable {S : Setting} {p : Peers} {c : Conf Request (BitVec 32)} {s : SendState} {r : RecvState}

theorem Sim.init (S : Setting) (filename filepath : List Byte) (toAddr fromAddr : Mac)
    (stack : EthernetFrame) :
    Sim S (Peers.init filename filepath toAddr fromAddr stack) Conf.init where
  sender := ⟨.setup rfl rfl, nofun⟩
  receiver := .inl ⟨rfl, rfl⟩
  requests := .nil
  replies := .nil

theorem Sending.at {content : List Byte} {issued : List Request} {waiting : Bool}
    {q : Progress SendState Int Fault} (h : Sending content issued waiting q) :
    ∃ s, At content s issued waiting ∧ q.state? = some s := by
  cases q with
  | running s => exact ⟨s, h.1, rfl⟩
  | returned s v => exact ⟨s, h, rfl⟩
  | faulted f => exact h.elim

theorem Serving.at {served : List Request} {q : Progress RecvState Int Fault}
    (h : Serving served q) : ∃ r, q.state? = some r ∧ r.output = fileOf served := by
  cases q with
  | running r => exact ⟨r, rfl, h.output⟩
  | returned r v => exact ⟨r, rfl, h⟩
  | faulted f => exact h.elim

theorem forall₂_eraseIdx {α β : Type} {R : α → β → Prop} {l : List α} {m : List β}
    (h : List.Forall₂ R l m) (i : Nat) : List.Forall₂ R (l.eraseIdx i) (m.eraseIdx i) := by
  induction h generalizing i with
  | nil => exact .nil
  | cons hab _ ih =>
      cases i with
      | zero => assumption
      | succ i => exact .cons hab (ih i)

/-- A turn that sends nothing leaves the channel as it is. -/
theorem senderMoves_quiet {ev : SendEvent}
    (hsent : sentBy (fileSendTurn S.sendHost s ev) = s.sent) :
    p.senderMoves S s ev = { p with sender := fileSendTurn S.sendHost s ev } := by
  simp [Peers.senderMoves, hsent]

theorem receiverMoves_sent {ev : RecvEvent} {new : List Packet}
    (hacks : acksBy (fileRecvPass S.recvHost r ev) = r.sent ++ new) :
    p.receiverMoves S r ev = { p with
      receiver := fileRecvPass S.recvHost r ev, toSend := p.toSend ++ new } := by
  simp [Peers.receiverMoves, hacks]

/-- A sender at a `recvAck` waits for the reply to its last request. -/
theorem Sending.waits {content : List Byte} {issued : List Request} {waiting : Bool}
    (h : Sending content issued waiting (.running s)) (hwait : s.pc.Waits) : waiting = true := by
  obtain ⟨hat, hend⟩ := h
  cases hat with
  | setup hpc _ => simp [SendPc.Waits, hpc] at hwait
  | loop hpc _ _ => simp [SendPc.Waits, hpc] at hwait
  | reqAck | dataAck | endAck => rfl
  | done hpc _ _ => exact hend hpc

/-- The sender issues a request. -/
theorem Sim.issue {ev : SendEvent} {t : SendState} {request : Request} {pc : SendPc}
    (h : Sim S p c) (hs : p.sender = .running s) (hfile : ev.Reads S)
    (hask : Asks s ev t request pc)
    (hturn : fileSendTurn S.sendHost s ev = .running (t.issue S.sendHost request pc)) :
    c.waiting = false ∧ Sim S (p.senderMoves S s ev) (c.issue request) := by
  have hat : At S.content s c.issued c.waiting := by
    have hsending := h.sender
    rw [hs] at hsending
    exact hsending.1
  obtain ⟨hidle, hat'⟩ := hat.issue hask hfile
  have hnew : (sentBy (fileSendTurn S.sendHost s ev)).drop s.sent.length
      = [requestPacket S.sendHost t request] := by
    rw [hturn]
    show (t.sent ++ [_]).drop s.sent.length = _
    rw [hask.sent.1, List.drop_left]
  refine ⟨hidle, ?_, h.receiver, ?_, h.replies⟩
  · show Sending _ _ _ (fileSendTurn S.sendHost s ev)
    rw [hturn]
    exact ⟨hat', fun _ => rfl⟩
  · show List.Forall₂ _ (p.toRecv ++ _) _
    rw [hnew]
    exact List.rel_append h.requests (.cons hask.carries .nil)

/-- An ack on its way is read as SUCCESS. -/
theorem Sim.reply {ev : SendEvent} {pkt : Packet} {rest : List Packet} (h : Sim S p c)
    (hq : p.toSend = pkt :: rest) (hrecv : ev.recvfrom = some pkt) :
    ∃ words, c.replies = SUCCESS :: words ∧ replyTo S.sendHost ev = .status SUCCESS ∧
      List.Forall₂ (CarriesAck S.recvHost) rest words := by
  have hreplies := h.replies
  rw [hq] at hreplies
  obtain ⟨word, words, ⟨rfl, toAddr, fromAddr, rfl⟩, hrest, hc⟩ :=
    List.forall₂_cons_left_iff.mp hreplies
  exact ⟨words, hc, replyTo_of_sent hrecv, hrest⟩

/-- The sender takes the reply to its request. -/
theorem Sim.accept {ev : SendEvent} {rest : List Packet} {words : List (BitVec 32)}
    (h : Sim S p c) (hs : p.sender = .running s) (hwait : s.pc.Waits)
    (hreply : replyTo S.sendHost ev = .status SUCCESS)
    (hrest : List.Forall₂ (CarriesAck S.recvHost) rest words) :
    Sim S ({ p with toSend := rest }.senderMoves S s ev) (c.accept words) := by
  have hsending := h.sender
  rw [hs] at hsending
  obtain ⟨hsent, hsending', _⟩ :=
    hsending.1.accept hwait hreply (fileSendTurn_spec S.sendHost s ev)
  rw [senderMoves_quiet hsent]
  exact ⟨hsending', h.receiver, h.requests, hrest⟩

/-- The frame next in the channel carries the next line of the sender's
script. -/
theorem Sim.next {pkt : Packet} {rest : List Packet} (h : Sim S p c) (hphase : Phase c)
    (hq : p.toRecv = pkt :: rest) : ∃ request requests, c.requests = request :: requests ∧
      Carries S.sendHost pkt request ∧ List.Forall₂ (Carries S.sendHost) rest requests ∧
      Scripted (c.served ++ [request]) := by
  have hrequests := h.requests
  rw [hq] at hrequests
  obtain ⟨request, requests, hcarry, hrest, hc⟩ := List.forall₂_cons_left_iff.mp hrequests
  obtain ⟨_, _, _, hissued⟩ := hphase.next hc
  obtain ⟨_, hat, _⟩ := h.sender.at
  exact ⟨request, requests, hc, hcarry, hrest, hissued ▸ hat.scripted⟩

/-- The receiver serves the request on its way; the ack may not go out. -/
theorem Sim.serve {ev : RecvEvent} {pkt : Packet} {rest : List Packet} (h : Sim S p c)
    (hphase : Phase c) (hr : p.receiver = .running r) (hok : ev.FilesOk)
    (hq : p.toRecv = pkt :: rest) (hrecv : ev.recvfrom = some pkt) :
    ∃ request requests, c.requests = request :: requests ∧
      Sim S ({ p with toRecv := rest }.receiverMoves S r ev)
        { c.serve request requests SUCCESS with
          replies := c.replies ++ if ev.sendto then [SUCCESS] else [] } ∧
      ∀ t v, fileRecvPass S.recvHost r ev = .returned t v → v = 0 ∧ request = .finish := by
  have hserving := h.receiver
  rw [hr] at hserving
  obtain ⟨request, requests, hc, hcarry, hrest, hscript⟩ := h.next hphase hq
  have hserved : Served S.recvHost r ev c.served request :=
    hserving.serve hok hrecv hscript hcarry
  obtain ⟨frame, hacks⟩ := hserved.acks
  refine ⟨request, requests, hc, ?_, hserved.result⟩
  rw [receiverMoves_sent hacks]
  refine ⟨h.sender, hserved.serving, hrest, List.rel_append h.replies ?_⟩
  cases ev.sendto with
  | true => exact .cons ⟨rfl, _, _, rfl⟩ .nil
  | false => exact .nil

/-- A turn of the sender that receives nothing issues a request or ends the
run. -/
theorem Sim.sender_turn {ev : SendEvent} (h : Sim S p c) (hs : p.sender = .running s)
    (hfile : ev.Reads S) (hrecv : ev.recvfrom = none) :
    Sim S (p.senderMoves S s ev) c ∨ ∃ t request pc, Asks s ev t request pc ∧
      c.waiting = false ∧ Sim S (p.senderMoves S s ev) (c.issue request) := by
  have hsending := h.sender
  rw [hs] at hsending
  have hat := hsending.1
  -- a turn that ends the run and sends nothing is no step of the exchange
  have stop : sentBy (fileSendTurn S.sendHost s ev) = s.sent →
      Sending S.content c.issued c.waiting (fileSendTurn S.sendHost s ev) →
      Sim S (p.senderMoves S s ev) c := by
    intro hsent hstop
    rw [senderMoves_quiet hsent]
    exact ⟨hstop, h.receiver, h.requests, h.replies⟩
  by_cases hwait : s.pc.Waits
  · obtain ⟨hsent, hstop⟩ := hat.noReply hwait hrecv (fileSendTurn_spec S.sendHost s ev)
    exact .inl (stop hsent hstop)
  rcases (fileSendTurn_spec S.sendHost s ev).idle hwait with
    ⟨hturn, _⟩ | ⟨t, request, pc, hask, ⟨_, hturn⟩ | ⟨_, hturn⟩⟩
  · refine .inl (stop ?_ ?_)
    · rw [hturn]
      rfl
    · rw [hturn]
      exact hat
  · obtain ⟨hidle, hsim⟩ := h.issue hs hfile hask hturn
    exact .inr ⟨t, request, pc, hask, hidle, hsim⟩
  · obtain ⟨hsent, hpc, hhist⟩ := hask.sent
    refine .inl (stop ?_ ?_)
    · rw [hturn]
      exact hsent
    · rw [hturn]
      exact hat.giveUp hpc hhist nofun

/-- An ack that did not go out is an ack that was lost. -/
theorem serve_steps {request : Request} {requests : List Request} (word : BitVec 32)
    (hc : c.requests = request :: requests) (sendto : Bool) :
    Relation.ReflTransGen StopAndWait.Step c { c.serve request requests word with
      replies := c.replies ++ if sendto then [word] else [] } := by
  have hserve : StopAndWait.Step c (c.serve request requests word) := .party (.serve _ hc)
  cases sendto with
  | true => exact .single hserve
  | false =>
      refine (Relation.ReflTransGen.single hserve).tail (.loseReply ?_)
      rw [if_neg (by simp), List.append_nil]
      exact List.sublist_append_left _ _

/-- **The two programs and the channels refine the stop-and-wait
exchange**: each of their steps is some steps of it, or none. -/
theorem step_simulates {q : Peers} (hphase : Phase c) (h : Sim S p c) (hstep : Step S p q) :
    ∃ d, Relation.ReflTransGen StopAndWait.Step c d ∧ Sim S q d := by
  cases hstep with
  | sender hs hfile hrecv =>
      rcases h.sender_turn hs hfile hrecv with hsim | ⟨_, request, _, _, hidle, hsim⟩
      · exact ⟨c, .refl, hsim⟩
      · exact ⟨_, .single (.party (.issue request hidle)), hsim⟩
  | senderReceives hs hwait hq hrecv =>
      obtain ⟨words, hc, hreply, hrest⟩ := h.reply hq hrecv
      have hwaiting := (hs ▸ h.sender).waits hwait
      exact ⟨_, .single (.party (.accept hwaiting hc)), h.accept hs hwait hreply hrest⟩
  | receiver hr hrecv =>
      have hserving := h.receiver
      rw [hr] at hserving
      obtain ⟨hstop, hacks⟩ := hserving.fails S.recvHost hrecv
      refine ⟨c, .refl, ?_⟩
      rw [receiverMoves_sent (hacks.trans (List.append_nil _).symm), List.append_nil]
      exact ⟨h.sender, hstop, h.requests, h.replies⟩
  | @receiverReceives r ev pkt rest hr hok hq hrecv =>
      obtain ⟨request, requests, hc, hsim, _⟩ := h.serve hphase hr hok hq hrecv
      exact ⟨_, serve_steps SUCCESS hc ev.sendto, hsim⟩
  | loseFrame i =>
      refine ⟨{ c with requests := c.requests.eraseIdx i },
        .single (.loseRequest (List.eraseIdx_sublist _ _)), ?_⟩
      exact ⟨h.sender, h.receiver, forall₂_eraseIdx h.requests i, h.replies⟩
  | loseAck i =>
      refine ⟨{ c with replies := c.replies.eraseIdx i },
        .single (.loseReply (List.eraseIdx_sublist _ _)), ?_⟩
      exact ⟨h.sender, h.receiver, h.requests, forall₂_eraseIdx h.replies i⟩

/-- Every reachable state of the two programs stands where some state of the
exchange does. -/
theorem reachable_sim {filename filepath : List Byte} {toAddr fromAddr : Mac}
    {stack : EthernetFrame} (run : Relation.ReflTransGen (Step S)
      (Peers.init filename filepath toAddr fromAddr stack) p) :
    ∃ c, Phase c ∧ Sim S p c := by
  obtain ⟨c, _, hphase, hsim⟩ := simulation_reachable (fun _ _ h hstep => Phase.step h hstep)
    (fun _ _ _ hphase h hstep => step_simulates hphase h hstep) run StopAndWait.phase_init
    (Sim.init S filename filepath toAddr fromAddr stack)
  exact ⟨c, hphase, hsim⟩

end Simulation

end BeEasy.FileTransmit
