import BeEasy.FileTransmit.Transfer

/-!
# FileTransmit — Packet count

Five numbers that should agree at the END of a transfer: the data packets on
the wire, the `count` of `sendFileData`, the `fileCount` that each program
computes from the size, and the `recvCount` of the receiver. The loop counts
reads until one of them comes short, the formula divides; `chunksLeft` is the
measure that ties them, and it goes down by one with each data packet.
-/

namespace BeEasy.FileTransmit

open CVerif
open CVerif.StopAndWait (Conf Phase)

/-! ## The packets and the formula -/

/-- The status word of a packet. -/
def packetStatus (pkt : Packet) : BitVec 32 :=
  BitVec.ofNat 32 (ofBeBytes (field pkt ETHERNET_HEADER_SIZE 4))

/-- The data packets among those that were sent. -/
def dataPackets (sent : List Packet) : Nat := sent.countP (packetStatus · = ING)

/-- How many data packets carry a file of this length. -/
def packetsFor (length : Nat) : Nat := length / TRANSMITSIZE + 1

/-- What both programs put in `fileCount`. -/
def countOf (fileSize : BitVec 64) : BitVec 32 :=
  (fileSize / BitVec.ofNat 64 TRANSMITSIZE + 1#64).setWidth 32

theorem countOf_length {n : Nat} (h : n < 2 ^ 64) :
    countOf (BitVec.ofNat 64 n) = BitVec.ofNat 32 (packetsFor n) := by
  have hsize : (BitVec.ofNat 64 n).toNat = n := by
    rw [BitVec.toNat_ofNat, Nat.mod_eq_of_lt h]
  have hchunk : (BitVec.ofNat 64 TRANSMITSIZE).toNat = TRANSMITSIZE := rfl
  apply BitVec.eq_of_toNat_eq
  rw [countOf, BitVec.toNat_setWidth, BitVec.toNat_add, BitVec.toNat_udiv, hsize, hchunk,
    BitVec.toNat_ofNat, BitVec.toNat_ofNat]
  simp only [packetsFor, TRANSMITSIZE]
  omega

def Request.statusWord : Request → BitVec 32
  | .start _ => START
  | .data _ => ING
  | .finish => END

theorem packetStatus_request (host : Host) (s : SendState) (request : Request) :
    packetStatus (requestPacket host s request) = request.statusWord := by
  have himage : ∃ rest, request.image host = beBytes 4 request.statusWord.toNat ++ rest := by
    cases request with
    | start attr => exact image_start host attr
    | data chunk => exact ⟨_, image_data host chunk⟩
    | finish => exact ⟨[], by rw [image_finish, List.append_nil]; rfl⟩
  obtain ⟨rest, himage⟩ := himage
  rw [packetStatus, requestPacket, himage, field_at (length_header ..) (length_beBytes 4 _),
    ofBeBytes_beBytes]
  exact BitVec.eq_of_toNat_eq (by simp; omega)

/-! ## The sender's count -/

/-- The data packets the sender still has to send. -/
def SendPc.chunksLeft (content : List Byte) : SendPc → Nat
  | .setup => packetsFor content.length
  | .reqAck _ fp | .loop fp | .dataAck _ fp => fp.reads TRANSMITSIZE
  | .endAck => 0

/-- What the sender has counted, sent and still to send. -/
structure SendTally (content : List Byte) (s : SendState) : Prop where
  packets : dataPackets s.sent + s.pc.chunksLeft content = packetsFor content.length
  acked : s.acked.length + s.unacked.toList.length = dataPackets s.sent
  count : s.count = BitVec.ofNat 32 s.acked.length
  fileCount : s.pc ≠ .setup → s.fileCount = countOf (BitVec.ofNat 64 content.length)

/-- The calls of a turn that read the file work: it is the file to transfer,
`ftell` says its length, and `fread` does not fail. -/
structure SendEvent.Measures (S : Setting) (ev : SendEvent) : Prop where
  reads : ev.Reads S
  ftell : ev.ftell = BitVec.ofNat 64 S.content.length
  fread : ev.fread = none

section Sender

variable {S : Setting} {s t : SendState} {ev : SendEvent} {host : Host} {request : Request}
  {pc : SendPc}

theorem dataPackets_issue : dataPackets (s.issue host request pc).sent
    = dataPackets s.sent + request.chunk?.toList.length := by
  show dataPackets (s.sent ++ [requestPacket host s request]) = _
  rw [dataPackets, List.countP_append, List.countP_singleton, packetStatus_request]
  cases request with
  | start attr => rfl
  | data chunk => rfl
  | finish => rfl

theorem SendTally.record {content : List Byte} {reply : Reply} (h : SendTally content s)
    (hnone : ackedChunk (request, reply) = none) : SendTally content (s.record request reply) := by
  have hacked : (s.record request reply).acked = s.acked := by
    rw [acked_record, hnone, Option.toList_none, List.append_nil]
  exact ⟨h.packets, by rw [hacked]; exact h.acked, by rw [hacked]; exact h.count, h.fileCount⟩

/-- The tally, for where the sender stands. -/
theorem SendTally.standing {content : List Byte} (h : SendTally content s) (hpc : s.pc = pc) :
    dataPackets s.sent + pc.chunksLeft content = packetsFor content.length ∧
      s.acked.length + { s with pc }.unacked.toList.length = dataPackets s.sent := by
  cases hpc
  exact ⟨h.packets, h.acked⟩

/-- The next request is sent: a data packet is one of those that were left. -/
theorem SendTally.issue (h : SendTally S.content s) (hm : ev.Measures S)
    (hask : Asks s ev t request pc) : SendTally S.content (t.issue host request pc) := by
  have hsent := @dataPackets_issue t host request pc
  cases hask with
  | start hpc hfrom harp hto hopen =>
      obtain ⟨hpackets, hacked⟩ := h.standing hpc
      refine ⟨?_, ?_, h.count, fun _ => ?_⟩
      · rw [hsent, hm.reads _ hopen]
        exact hpackets
      · rw [hsent]
        exact hacked
      · show countOf ev.ftell = _
        rw [hm.ftell]
  | @data fp hpc heof =>
      have hreads : (fp.fread TRANSMITSIZE none).2.reads TRANSMITSIZE + 1 = fp.reads TRANSMITSIZE :=
        InStream.reads_fread (by decide) heof
      have hcount : s.fileCount = _ := h.fileCount (by simp [hpc])
      obtain ⟨hpackets, hacked⟩ := h.standing hpc
      rw [hm.fread] at hsent ⊢
      refine ⟨?_, ?_, h.count, fun _ => hcount⟩
      · rw [hsent]
        simp only [SendPc.chunksLeft, SendState.issue_pc, Request.chunk?, Option.toList_some,
          List.length_singleton] at hpackets ⊢
        omega
      · rw [hsent, ← hacked]
        rfl
  | @finish fp hpc heof =>
      have hreads : fp.reads TRANSMITSIZE = 0 := if_pos heof
      have hcount : s.fileCount = _ := h.fileCount (by simp [hpc])
      obtain ⟨hpackets, hacked⟩ := h.standing hpc
      rw [SendPc.chunksLeft, hreads] at hpackets
      refine ⟨?_, ?_, h.count, fun _ => hcount⟩
      · rw [hsent]
        exact hpackets
      · rw [hsent]
        exact hacked

theorem SendTally.startAcked {content : List Byte} {attr : FileAttr} {fp : InStream}
    (h : SendTally content s) (hpc : s.pc = .reqAck attr fp) :
    SendTally content { s.record (.start attr) (.status SUCCESS) with pc := .loop fp } := by
  have hsame : (s.record (.start attr) (.status SUCCESS)).acked = s.acked :=
    (acked_record _ _).trans (List.append_nil _)
  obtain ⟨hpackets, hacked⟩ := h.standing hpc
  have hcount : s.fileCount = _ := h.fileCount (by simp [hpc])
  refine ⟨hpackets, ?_, ?_, fun _ => hcount⟩
  · show (s.record (.start attr) (.status SUCCESS)).acked.length + 0 = dataPackets s.sent
    rw [hsame]
    exact hacked
  · show s.count = BitVec.ofNat 32 (s.record (.start attr) (.status SUCCESS)).acked.length
    rw [hsame]
    exact h.count

/-- The ack for a data packet moves it from the pending to the counted. -/
theorem SendTally.chunkAcked {content chunk : List Byte} {fp : InStream}
    (h : SendTally content s) (hpc : s.pc = .dataAck chunk fp) :
    SendTally content { s.record (.data chunk) (.status SUCCESS) with
      pc := .loop fp, count := s.count + 1 } := by
  have hgrown : (s.record (.data chunk) (.status SUCCESS)).acked = s.acked ++ [chunk] :=
    acked_record _ _
  obtain ⟨hpackets, hacked⟩ := h.standing hpc
  have hcount : s.fileCount = _ := h.fileCount (by simp [hpc])
  refine ⟨hpackets, ?_, ?_, fun _ => hcount⟩
  · show (s.record (.data chunk) (.status SUCCESS)).acked.length + 0 = dataPackets s.sent
    rw [hgrown, List.length_append]
    exact hacked
  · show s.count + 1 = BitVec.ofNat 32 (s.record (.data chunk) (.status SUCCESS)).acked.length
    rw [hgrown, List.length_append, h.count]
    exact (BitVec.ofNat_add _ 1).symm

/-- **A turn keeps the tally**, whatever comes back. -/
theorem SendTally.turn {q : Progress SendState Int Fault} (h : SendTally S.content s)
    (hm : ¬ s.pc.Waits → ev.Measures S) (hturn : Turn host s ev q) :
    ∀ u, q.state? = some u → SendTally S.content u := by
  intro u hu
  cases hturn with
  | noSetup hpc hfail =>
      cases hu
      exact h
  | issued hask hsend =>
      cases hu
      exact h.issue (hm hask.not_waits) hask
  | @notIssued t request pc hask hsend =>
      cases hu
      refine SendTally.record ?_ (ackedChunk_refused request nofun)
      cases hask with
      | start hpc => exact ⟨h.packets, h.acked, h.count, fun hne => absurd hpc hne⟩
      | data => exact h
      | finish => exact h
  | startAcked hpc hr =>
      cases hu
      exact h.startAcked hpc
  | startRefused hpc hr =>
      cases hu
      exact h.record (ackedChunk_refused _ hr)
  | chunkAcked hpc hr =>
      cases hu
      exact h.chunkAcked hpc
  | chunkRefused hpc hr =>
      cases hu
      exact h.record (ackedChunk_refused _ hr)
  | finished hpc =>
      cases hu
      exact h.record rfl

theorem sendTally_init (content filename filepath : List Byte) (toAddr fromAddr : Mac) :
    SendTally content (SendState.init filename filepath toAddr fromAddr) where
  packets := Nat.zero_add _
  acked := rfl
  count := rfl
  fileCount := fun h => absurd rfl h

end Sender

/-! ## The receiver's count -/

def packetsIn (requests : List Request) : Nat := (requests.filterMap Request.chunk?).length

/-- What the receiver has counted of the requests it served. -/
structure RecvTally (r : RecvState) (served : List Request) : Prop where
  recvCount : r.recvCount = BitVec.ofNat 32 (packetsIn served)
  fileCount : ∀ attr, .start attr ∈ served → r.fileCount = countOf attr.fileSize

theorem packetsIn_concat (requests : List Request) (request : Request) :
    packetsIn (requests ++ [request]) = packetsIn requests + request.chunk?.toList.length := by
  rw [packetsIn, List.filterMap_append, List.length_append]
  cases request with
  | start attr => rfl
  | data chunk => rfl
  | finish => rfl

theorem packetsIn_script (attr : FileAttr) (chunks : List (List Byte)) :
    packetsIn (script attr chunks) = chunks.length := by
  show ((chunks.map Request.data).filterMap Request.chunk?).length = chunks.length
  rw [List.filterMap_map]
  exact congrArg List.length List.filterMap_some

section Receiver

variable {host sender : Host} {r : RecvState} {ev : RecvEvent} {pkt : Packet}
  {served : List Request} {request : Request}

theorem recvTally_init (stack : EthernetFrame) : RecvTally (RecvState.init stack) [] where
  recvCount := rfl
  fileCount := nofun

/-- A request that is no START leaves `fileCount`. -/
theorem RecvTally.concat {t : RecvState} (h : RecvTally r served)
    (hno : ∀ attr, request ≠ .start attr) (hfile : t.fileCount = r.fileCount)
    (hcount : t.recvCount = r.recvCount + BitVec.ofNat 32 request.chunk?.toList.length) :
    RecvTally t (served ++ [request]) where
  recvCount := by rw [hcount, h.recvCount, packetsIn_concat, BitVec.ofNat_add]
  fileCount := by
    intro attr hmem
    rcases List.mem_append.mp hmem with hmem | hmem
    · exact hfile.trans (h.fileCount attr hmem)
    · exact absurd (List.mem_singleton.mp hmem).symm (hno attr)

/-- The size in the START frame is the sender's, so the count is too. -/
theorem createFile_fileCount {frame : EthernetFrame} {attr : FileAttr} {rest : List Byte}
    (hdata : frame.data = attr.image sender ++ rest) (fopen : Bool) :
    (createFile host { r with frame } fopen).state.fileCount = countOf attr.fileSize := by
  have hcount : (createFile host { r with frame } fopen).state.fileCount
      = countOf (ntohll host (loadLong host (field frame.data 8 8))) := by
    cases fopen <;> rfl
  rw [hcount, hdata, FileAttr.field_fileSize, ntohll_loadLong_beBytes]

theorem RecvTally.serve (h : RecvTally r served) (hserving : Serving served (.running r))
    (hok : ev.FilesOk) (hrecv : ev.recvfrom = some pkt) (hnext : Scripted (served ++ [request]))
    (hcarry : Carries sender pkt request) :
    ∀ t, (fileRecvPass host r ev).state? = some t → RecvTally t (served ++ [request]) := by
  intro t ht
  rcases hserving with ⟨rfl, hfp⟩ | ⟨attr, chunks, file, rfl, hfp, hfile⟩
  · obtain ⟨attr, rfl⟩ := Scripted.first hnext
    obtain ⟨frame, rest, hdata, hpass⟩ := pass_of_start hok hrecv host r hcarry
    rw [hpass] at ht
    cases ht
    refine ⟨h.recvCount, ?_⟩
    intro attr' hmem
    cases List.mem_singleton.mp hmem
    exact createFile_fileCount hdata true
  · rcases hnext.next with ⟨chunk, rfl⟩ | rfl
    · obtain ⟨frame, hpass⟩ := pass_of_data hok hrecv host hfp hcarry
      rw [hpass] at ht
      cases ht
      exact h.concat nofun rfl rfl
    · obtain ⟨frame, hpass⟩ := pass_of_finish hok hrecv host r hcarry
      rw [hpass] at ht
      cases ht
      -- the counts are the flush's, which leaves them
      refine h.concat nofun (flushFile_fileCount { r with frame } true ev.flushed) ?_
      exact (flushFile_recvCount { r with frame } true ev.flushed).trans (BitVec.add_zero _).symm

end Receiver

/-! ## Whole runs -/

/-- The steps of the two programs and of channels that may lose frames,
where reading the source does not fail. -/
inductive Reading (S : Setting) : Peers → Peers → Prop
  | sender {p s ev} (hs : p.sender = .running s) (hm : ev.Measures S)
      (hrecv : ev.recvfrom = none) : Reading S p (p.senderMoves S s ev)
  | senderReceives {p s ev pkt rest} (hs : p.sender = .running s) (hwait : s.pc.Waits)
      (hq : p.toSend = pkt :: rest) (hrecv : ev.recvfrom = some pkt) :
      Reading S p ({ p with toSend := rest }.senderMoves S s ev)
  | receiver {p r ev} (hr : p.receiver = .running r) (hrecv : ev.recvfrom = none) :
      Reading S p (p.receiverMoves S r ev)
  | receiverReceives {p r ev pkt rest} (hr : p.receiver = .running r) (hok : ev.FilesOk)
      (hq : p.toRecv = pkt :: rest) (hrecv : ev.recvfrom = some pkt) :
      Reading S p ({ p with toRecv := rest }.receiverMoves S r ev)
  | loseFrame {p} (i : Nat) : Reading S p { p with toRecv := p.toRecv.eraseIdx i }
  | loseAck {p} (i : Nat) : Reading S p { p with toSend := p.toSend.eraseIdx i }

/-- Both tallies, along the exchange that the two programs refine. -/
structure Counted (S : Setting) (p : Peers) (c : Conf Request (BitVec 32)) : Prop where
  phase : Phase c
  sim : Sim S p c
  sender : ∀ s, p.sender.state? = some s → SendTally S.content s
  sizes : ∀ attr, .start attr ∈ c.issued → attr.fileSize = BitVec.ofNat 64 S.content.length
  receiver : ∀ r, p.receiver.state? = some r → RecvTally r c.served
  ended : ∀ r, p.receiver = .returned r 0 → .finish ∈ c.served

section Runs

variable {S : Setting} {p q : Peers} {c d : Conf Request (BitVec 32)} {s : SendState}
  {r : RecvState}

theorem counted_init (S : Setting) (filename filepath : List Byte) (toAddr fromAddr : Mac)
    (stack : EthernetFrame) :
    Counted S (Peers.init filename filepath toAddr fromAddr stack) Conf.init where
  phase := StopAndWait.phase_init
  sim := Sim.init S filename filepath toAddr fromAddr stack
  sender := by
    intro s hs
    cases hs
    exact sendTally_init S.content filename filepath toAddr fromAddr
  sizes := nofun
  receiver := by
    intro r hr
    cases hr
    exact recvTally_init stack
  ended := nofun

/-- The START carries the size that `ftell` reported. -/
theorem Asks.fileSize {ev : SendEvent} {t : SendState} {pc : SendPc} {attr : FileAttr}
    (hask : Asks s ev t (.start attr) pc) : attr.fileSize = ev.ftell := by
  cases hask with
  | start => rfl

theorem Counted.sender_turn {ev : SendEvent} (h : Counted S p c) (hs : p.sender = .running s)
    (hm : ev.Measures S) (hrecv : ev.recvfrom = none) :
    ∃ d, Counted S (p.senderMoves S s ev) d := by
  have htally : ∀ u, (p.senderMoves S s ev).sender.state? = some u → SendTally S.content u :=
    (h.sender s (by rw [hs]; rfl)).turn (fun _ => hm) (fileSendTurn_spec S.sendHost s ev)
  rcases h.sim.sender_turn hs hm.reads hrecv with hsim | ⟨t, request, pc, hask, hidle, hsim⟩
  · exact ⟨c, h.phase, hsim, htally, h.sizes, h.receiver, h.ended⟩
  · refine ⟨c.issue request, h.phase.reliable (.issue request hidle), hsim, htally, ?_,
      h.receiver, h.ended⟩
    intro attr hmem
    rcases List.mem_append.mp hmem with hmem | hmem
    · exact h.sizes attr hmem
    · cases List.mem_singleton.mp hmem
      exact hask.fileSize.trans hm.ftell

theorem Counted.accept {ev : SendEvent} {pkt : Packet} {rest : List Packet} (h : Counted S p c)
    (hs : p.sender = .running s) (hwait : s.pc.Waits) (hq : p.toSend = pkt :: rest)
    (hrecv : ev.recvfrom = some pkt) :
    ∃ d, Counted S ({ p with toSend := rest }.senderMoves S s ev) d := by
  obtain ⟨words, hc, hreply, hrest⟩ := h.sim.reply hq hrecv
  have hwaiting := (hs ▸ h.sim.sender).waits hwait
  refine ⟨c.accept words, h.phase.reliable (.accept hwaiting hc),
    h.sim.accept hs hwait hreply hrest, ?_, h.sizes, h.receiver, h.ended⟩
  exact (h.sender s (by rw [hs]; rfl)).turn (fun hidle => absurd hwait hidle)
    (fileSendTurn_spec S.sendHost s ev)

/-- A receive that fails ends the receiver's run with -1 and no END. -/
theorem Counted.receiver_fails {ev : RecvEvent} (h : Counted S p c)
    (hr : p.receiver = .running r) (hrecv : ev.recvfrom = none) :
    Counted S (p.receiverMoves S r ev) c := by
  have hserving := h.sim.receiver
  rw [hr] at hserving
  obtain ⟨hstop, hacks⟩ := hserving.fails S.recvHost hrecv
  have hnone : received S.recvHost r ev = none := by
    rw [received, hrecv]
    rfl
  have hpass := fileRecvPass_notReceived hnone
  have htally := h.receiver r (by rw [hr]; rfl)
  rw [receiverMoves_sent (hacks.trans (List.append_nil _).symm), List.append_nil]
  refine ⟨h.phase, ⟨h.sim.sender, hstop, h.sim.requests, h.sim.replies⟩, h.sender, h.sizes, ?_, ?_⟩
  · intro t ht
    have ht : (fileRecvPass S.recvHost r ev).state? = some t := ht
    rw [hpass] at ht
    cases ht
    exact ⟨htally.recvCount, htally.fileCount⟩
  · intro t ht
    have ht : fileRecvPass S.recvHost r ev = .returned t 0 := ht
    rw [hpass] at ht
    cases ht

theorem Counted.serve {ev : RecvEvent} {pkt : Packet} {rest : List Packet} (h : Counted S p c)
    (hr : p.receiver = .running r) (hok : ev.FilesOk) (hq : p.toRecv = pkt :: rest)
    (hrecv : ev.recvfrom = some pkt) :
    ∃ d, Counted S ({ p with toRecv := rest }.receiverMoves S r ev) d := by
  obtain ⟨request, requests, hc, hcarry, _, hscript⟩ := h.sim.next h.phase hq
  obtain ⟨request', requests', hc', hsim, hresult⟩ := h.sim.serve h.phase hr hok hq hrecv
  cases hc.symm.trans hc'
  have hserving := h.sim.receiver
  rw [hr] at hserving
  have hphase := invariant_reachable (fun _ _ hphase hstep => Phase.step hphase hstep)
    (serve_steps SUCCESS hc ev.sendto) h.phase
  have htally : ∀ t, (fileRecvPass S.recvHost r ev).state? = some t →
      RecvTally t (c.served ++ [request]) :=
    (h.receiver r (by rw [hr]; rfl)).serve hserving hok hrecv hscript hcarry
  refine ⟨_, hphase, hsim, h.sender, h.sizes, htally, ?_⟩
  intro t ht
  rw [(hresult t 0 ht).2]
  exact List.mem_concat_self

/-- Every step keeps the tallies. -/
theorem counted_step (h : ∃ c, Counted S p c) (hstep : Reading S p q) : ∃ d, Counted S q d := by
  obtain ⟨c, hc⟩ := h
  cases hstep with
  | sender hs hm hrecv => exact hc.sender_turn hs hm hrecv
  | senderReceives hs hwait hq hrecv => exact hc.accept hs hwait hq hrecv
  | receiver hr hrecv => exact ⟨c, hc.receiver_fails hr hrecv⟩
  | receiverReceives hr hok hq hrecv => exact hc.serve hr hok hq hrecv
  | loseFrame i =>
      refine ⟨{ c with requests := c.requests.eraseIdx i }, ?_, ?_, hc.sender, hc.sizes,
        hc.receiver, hc.ended⟩
      · exact hc.phase.step (.loseRequest (List.eraseIdx_sublist _ _))
      · exact ⟨hc.sim.sender, hc.sim.receiver, forall₂_eraseIdx hc.sim.requests i, hc.sim.replies⟩
  | loseAck i =>
      refine ⟨{ c with replies := c.replies.eraseIdx i }, ?_, ?_, hc.sender, hc.sizes,
        hc.receiver, hc.ended⟩
      · exact hc.phase.step (.loseReply (List.eraseIdx_sublist _ _))
      · exact ⟨hc.sim.sender, hc.sim.receiver, hc.sim.requests, forall₂_eraseIdx hc.sim.replies i⟩

/-- The five numbers agree, as 32-bit values. -/
structure PacketsAgree (S : Setting) (s : SendState) (r : RecvState) : Prop where
  packets : dataPackets s.sent = packetsFor S.content.length
  count : s.count = BitVec.ofNat 32 (dataPackets s.sent)
  sendFileCount : s.fileCount = BitVec.ofNat 32 (dataPackets s.sent)
  recvFileCount : r.fileCount = BitVec.ofNat 32 (dataPackets s.sent)
  recvCount : r.recvCount = BitVec.ofNat 32 (dataPackets s.sent)

/-- A sender that has issued END stands behind its last data packet. -/
theorem At.of_finish {content : List Byte} {issued : List Request} {waiting : Bool}
    (h : At content s issued waiting) (hmem : .finish ∈ issued) : s.pc = .endAck := by
  cases h with
  | setup hpc hack => exact absurd hmem List.not_mem_nil
  | reqAck | loop | dataAck => exact absurd hmem (finish_not_mem_script _ _)
  | endAck hpc | done hpc => exact hpc

/-- Once END was served, everything issued was. -/
theorem Counted.all_served (h : Counted S p c) (hfinish : .finish ∈ c.served) :
    c.served = c.issued := by
  rcases h.phase.served_or with hall | ⟨_, request, hissued⟩
  · exact hall
  · obtain ⟨_, hat, _⟩ := h.sim.sender.at
    have hscript : Scripted (c.served ++ [request]) := hissued ▸ hat.scripted
    exact absurd hfinish hscript.finish_not_before

theorem Counted.agree (h : Counted S p c) (hlen : S.content.length < 2 ^ 64)
    (hend : p.receiver = .returned r 0) : ∃ s, p.sender.state? = some s ∧ PacketsAgree S s r := by
  have hfinish := h.ended r hend
  have hall := h.all_served hfinish
  obtain ⟨s, hat, hs⟩ := h.sim.sender.at
  have hpc := hat.of_finish (hall ▸ hfinish)
  obtain ⟨attr, hissued, _⟩ := hat.of_endAck hpc
  have hsend := h.sender s hs
  have hrecv := h.receiver r (by rw [hend]; rfl)
  rw [hall, hissued] at hrecv
  obtain ⟨hpackets, hacked⟩ : dataPackets s.sent = packetsFor S.content.length ∧
      s.acked.length = dataPackets s.sent := hsend.standing hpc
  have hstart : .start attr ∈ c.issued := hissued ▸ List.mem_cons_self
  refine ⟨s, hs, hpackets, ?_, ?_, ?_, ?_⟩
  · rw [hsend.count, hacked]
  · rw [hsend.fileCount (by simp [hpc]), countOf_length hlen, hpackets]
  · rw [hrecv.fileCount attr List.mem_cons_self, h.sizes attr hstart, countOf_length hlen, hpackets]
  · rw [hrecv.recvCount, packetsIn_concat, packetsIn_script, hacked]
    rfl

theorem counted_reachable (run : Relation.ReflTransGen (Reading S) p q)
    (h : ∃ c, Counted S p c) : ∃ c, Counted S q c :=
  invariant_reachable (I := fun p => ∃ c, Counted S p c)
    (fun _ _ hp hstep => counted_step hp hstep) run h

end Runs

/-- **The five counts agree when END is handled**, for every length of the
file and however the two programs and the channels interleave. -/
theorem packets_counted (S : Setting) (hlen : S.content.length < 2 ^ 64)
    (filename filepath : List Byte) (toAddr fromAddr : Mac) (stack : EthernetFrame) {p : Peers}
    (run : Relation.ReflTransGen (Reading S)
      (Peers.init filename filepath toAddr fromAddr stack) p)
    {r : RecvState} (hend : p.receiver = .returned r 0) :
    ∃ s, p.sender.state? = some s ∧ PacketsAgree S s r := by
  obtain ⟨c, hc⟩ := counted_reachable run
    ⟨Conf.init, counted_init S filename filepath toAddr fromAddr stack⟩
  exact hc.agree hlen hend

/-- Such runs get there. -/
theorem reading_delivers (S : Setting) (filename filepath : List Byte) (toAddr fromAddr : Mac)
    (stack : EthernetFrame) : ∃ q, Relation.ReflTransGen (Reading S)
      (Peers.init filename filepath toAddr fromAddr stack) q ∧ Delivered S q := by
  let Both : Peers → Peers → Prop := fun p q => Reliable S p q ∧ Reading S p q
  have moves : ∀ p, (∃ c, Healthy S p c) → Delivered S p ∨ ∃ q, Both p q := by
    intro p ⟨c, h⟩
    rcases h.next with
      hdone | ⟨s, hs, hidle⟩ | ⟨s, pkt, rest, hs, hwait, hq⟩ | ⟨r, pkt, rest, hr, hq⟩
    · exact .inl hdone
    · let ev : SendEvent := { startSent with
        fopen := some S.content, ftell := BitVec.ofNat 64 S.content.length }
      have hwell : ev.Well S := ⟨nofun, rfl, nofun, rfl, rfl, rfl⟩
      have hm : ev.Measures S := ⟨hwell.reads, rfl, rfl⟩
      exact .inr ⟨_, .sender hs hidle hwell rfl, .sender hs hm rfl⟩
    · have hrecv : { startSent with recvfrom := some pkt }.recvfrom = some pkt := rfl
      exact .inr ⟨_, .senderReceives hs hwait hq hrecv, .senderReceives hs hwait hq hrecv⟩
    · have hok := deliver_filesOk pkt
      exact .inr ⟨_, .receiverReceives hr hok rfl hq rfl, .receiverReceives hr hok hq rfl⟩
  obtain ⟨q, run, hdone⟩ := reaches_final (fun _ _ hp hstep => healthy_step hp hstep.1) moves
    (healthy_init S filename filepath toAddr fromAddr stack)
  exact ⟨q, Relation.ReflTransGen.mono (fun _ _ hstep => hstep.2) _ _ run, hdone⟩

/-- One byte takes one data packet. -/
theorem packets_counted_oneByte : ∃ p s r, Delivered oneByte p ∧
    p.sender.state? = some s ∧ p.receiver = .returned r 0 ∧ PacketsAgree oneByte s r := by
  obtain ⟨p, run, hdone⟩ := reading_delivers oneByte [] [] blankMac blankMac blankFrame
  obtain ⟨_, r, _, _, hr, _⟩ := id hdone
  obtain ⟨s, hs, hagree⟩ :=
    packets_counted oneByte (by decide) [] [] blankMac blankMac blankFrame run hr
  exact ⟨p, s, r, hdone, hs, hr, hagree⟩

end BeEasy.FileTransmit
