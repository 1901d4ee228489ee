import BeEasy.FileTransmit.Sender

/-!
# FileTransmit — Sender turn

Everything one turn of `fileSend` can do, as a relation with one
constructor for each outcome (`Turn`), and the packets it sends: a request
goes out whole, behind the header, as the bytes of `Request.image`.
-/

namespace BeEasy.FileTransmit

open CVerif

/-! ## What a request looks like on the wire -/

def Request.image (host : Host) : Request → List Byte
  | .start attr => attr.image host
  | .data chunk => fileDataImage host chunk.length (sumBytes chunk)
      (chunk ++ List.replicate (TRANSMITSIZE - chunk.length) 0)
  | .finish => storeInt host (htonl host END)

/-- The packet that carries a request. -/
def requestPacket (host : Host) (s : SendState) (request : Request) : Packet :=
  header host s.toAddr s.fromAddr FILETRANSMIT ++ request.image host

theorem image_data (host : Host) (chunk : List Byte) :
    (Request.data chunk).image host = beBytes 4 ING.toNat
      ++ (beBytes 4 (BitVec.ofNat 32 chunk.length).toNat
        ++ (beBytes 4 (sumBytes chunk).toNat
          ++ (chunk ++ List.replicate (TRANSMITSIZE - chunk.length) 0))) := by
  simp only [Request.image, fileDataImage, storeInt_htonl, List.append_assoc]

theorem image_finish (host : Host) : Request.finish.image host = beBytes 4 END.toNat :=
  storeInt_htonl host END

theorem image_start (host : Host) (attr : FileAttr) :
    ∃ rest, (Request.start attr).image host = beBytes 4 START.toNat ++ rest := by
  simp only [Request.image, FileAttr.image, storeInt_htonl, List.append_assoc]
  exact ⟨_, rfl⟩

/-- A chunk padded with zeros fills `context`. -/
theorem length_context {chunk : List Byte} (h : chunk.length ≤ TRANSMITSIZE) :
    (chunk ++ List.replicate (TRANSMITSIZE - chunk.length) (0 : Byte)).length = TRANSMITSIZE := by
  rw [List.length_append, List.length_replicate]
  omega

/-- A request is sendable when its data, if any, fit the packet. -/
def Request.Fits : Request → Prop
  | .data chunk => chunk.length ≤ TRANSMITSIZE
  | _ => True

theorem length_image_le (host : Host) {request : Request} (h : request.Fits) :
    (request.image host).length ≤ MAX_ETHERNET_DATA_SIZE := by
  cases request with
  | start attr =>
      rw [Request.image, FileAttr.length_image]
      decide
  | data chunk =>
      rw [Request.image, length_fileDataImage host _ _ (length_context h)]
      decide
  | finish =>
      rw [image_finish, length_beBytes]
      decide

section Sends

variable (host : Host) (s : SendState)

theorem sendReq_eq (ev : SendEvent) :
    sendReq host s ev = .ok (if ev.sendto
      then (0, some (requestPacket host s (.start (fileAttr s ev)))) else (-1, none)) :=
  sendEtherData_ok host _ _ FILETRANSMIT (FileAttr.length_image host _) (by decide) ev.sendto

theorem sendChunk_eq {chunk : List Byte} (h : chunk.length ≤ TRANSMITSIZE) (sendto : Bool) :
    sendChunk host s chunk sendto = .ok (if sendto
      then (0, some (requestPacket host s (.data chunk))) else (-1, none)) := by
  have hsum : checksum chunk chunk.length = .ok (sumBytes chunk) := by
    rw [checksum_eq (Nat.le_refl _), List.take_length]
  have hcontext : writeBytes (List.replicate TRANSMITSIZE 0) 0 chunk
      = .ok (chunk ++ List.replicate (TRANSMITSIZE - chunk.length) 0) := writeBytes_zeros h
  simp only [sendChunk, hsum, hcontext, bind, Except.bind]
  exact sendEtherData_ok host _ _ FILETRANSMIT
    (length_fileDataImage host _ _ (length_context h)) (by decide) sendto

theorem sendEnd_eq (sendto : Bool) :
    sendEnd host s sendto = .ok (if sendto
      then (0, some (requestPacket host s .finish)) else (-1, none)) :=
  sendEtherData_ok host _ _ FILETRANSMIT (length_storeInt host _) (by decide) sendto

end Sends

/-! ## What a turn does -/

/-- The value `recvAck` hands back for a reply. -/
def Reply.ret : Reply → Int
  | .status word => word.toInt
  | _ => -1

/-- The state once a request got its reply, or could not be sent. -/
def SendState.record (s : SendState) (request : Request) (reply : Reply) : SendState :=
  { s with history := s.history ++ [(request, reply)] }

/-- The state once a request is on its way. -/
def SendState.issue (host : Host) (s : SendState) (request : Request) (pc : SendPc) : SendState :=
  { s with pc, sent := s.sent ++ [requestPacket host s request] }

@[simp] theorem SendState.record_history (s : SendState) (request : Request) (reply : Reply) :
    (s.record request reply).history = s.history ++ [(request, reply)] := rfl

@[simp] theorem SendState.issue_pc (host : Host) (s : SendState) (request : Request)
    (pc : SendPc) : (s.issue host request pc).pc = pc := rfl

section Turns

variable (host : Host) (s : SendState) (ev : SendEvent)

/-- The request a turn sends, from which state, and where it waits then. -/
inductive Asks : SendState → Request → SendPc → Prop
  | start {toAddr fromAddr content} (hpc : s.pc = .setup)
      (hfrom : ev.getLocalMacAddr = some fromAddr) (harp : ev.getMacFromArp = true)
      (hto : ev.macAton = some toAddr) (hopen : ev.fopen = some content) :
      Asks (s.opened toAddr fromAddr ev) (.start (fileAttr (s.opened toAddr fromAddr ev) ev))
        (.reqAck (fileAttr (s.opened toAddr fromAddr ev) ev) (InStream.ofContent content))
  | data {fp} (hpc : s.pc = .loop fp) (heof : fp.eof = false) :
      Asks s (.data (fp.fread TRANSMITSIZE ev.fread).1)
        (.dataAck (fp.fread TRANSMITSIZE ev.fread).1 (fp.fread TRANSMITSIZE ev.fread).2)
  | finish {fp} (hpc : s.pc = .loop fp) (heof : fp.eof = true) : Asks s .finish .endAck

/-- Everything a turn can do. -/
inductive Turn : Progress SendState Int Fault → Prop
  | noSetup (hpc : s.pc = .setup) (hfail : ev.getLocalMacAddr = none ∨ ev.getMacFromArp = false ∨
      ev.macAton = none ∨ ev.fopen = none) : Turn (.returned s (-1))
  | issued {t request pc} (hask : Asks s ev t request pc) (hsend : ev.sendto = true) :
      Turn (.running (t.issue host request pc))
  | notIssued {t request pc} (hask : Asks s ev t request pc) (hsend : ev.sendto = false) :
      Turn (.returned (t.record request .notSent) (-1))
  | startAcked {attr fp} (hpc : s.pc = .reqAck attr fp)
      (hr : replyTo host ev = .status SUCCESS) :
      Turn (.running { s.record (.start attr) (.status SUCCESS) with pc := .loop fp })
  | startRefused {attr fp} (hpc : s.pc = .reqAck attr fp)
      (hr : replyTo host ev ≠ .status SUCCESS) :
      Turn (.returned (s.record (.start attr) (replyTo host ev)) (replyTo host ev).ret)
  | chunkAcked {chunk fp} (hpc : s.pc = .dataAck chunk fp)
      (hr : replyTo host ev = .status SUCCESS) :
      Turn (.running { s.record (.data chunk) (.status SUCCESS) with
        pc := .loop fp, count := s.count + 1 })
  | chunkRefused {chunk fp} (hpc : s.pc = .dataAck chunk fp)
      (hr : replyTo host ev ≠ .status SUCCESS) :
      Turn (.returned (s.record (.data chunk) (replyTo host ev)) (-1))
  | finished (hpc : s.pc = .endAck) :
      Turn (.returned (s.record .finish (replyTo host ev)) (replyTo host ev).ret)

end Turns

section Spec

variable {host : Host} {s : SendState} {ev : SendEvent}

theorem recvAck_eq : recvAck host ev.stack ev.recvfrom = (replyTo host ev).ret := by
  simp only [recvAck, replyTo]
  split
  · rfl
  · rfl

/-- An ack some host sent is read back as it was sent. -/
theorem replyTo_of_sent {sender : Host} {toAddr fromAddr : Mac} {word : BitVec 32}
    (hrecv : ev.recvfrom
      = some (header sender toAddr fromAddr FILETRANSMIT ++ beBytes 4 word.toNat)) :
    replyTo host ev = .status word := by
  have hlen : (beBytes 4 word.toNat).length ≤ MAX_ETHERNET_DATA_SIZE := by
    rw [length_beBytes]
    decide
  simp only [replyTo, hrecv, recvEtherFrame_sent]
  rw [if_neg (by decide), frameStatus_eq (ev.stack.data_fill (length_header ..) hlen)]

/-- The test `ret != SUCCESS`. -/
theorem ret_eq_success_iff {reply : Reply} :
    reply.ret = SUCCESS.toInt ↔ reply = .status SUCCESS := by
  cases reply with
  | notSent => simp [Reply.ret, show SUCCESS.toInt = 224 by decide]
  | notReceived => simp [Reply.ret, show SUCCESS.toInt = 224 by decide]
  | status word => simp [Reply.ret, BitVec.toInt_inj]

theorem await_sent {request : Request} {pc : SendPc} :
    s.await request pc (0, some (requestPacket host s request))
      = .running (s.issue host request pc) := by
  simp only [SendState.await, Int.lt_irrefl, if_false]
  rfl

theorem await_notSent {request : Request} {pc : SendPc} :
    s.await request pc (-1, none) = .returned (s.record request .notSent) (-1) := by
  simp only [SendState.await, if_pos (show (-1 : Int) < 0 by decide)]
  rfl

/-- A request that was asked for is sent or gives up the run. -/
theorem turn_await {t : SendState} {request : Request} {pc : SendPc}
    (hask : Asks s ev t request pc) :
    Turn host s ev (t.await request pc (if ev.sendto
      then (0, some (requestPacket host t request)) else (-1, none))) := by
  cases hsend : ev.sendto with
  | true =>
      rw [if_pos rfl, await_sent]
      exact .issued hask hsend
  | false =>
      rw [if_neg (by simp), await_notSent]
      exact .notIssued hask hsend

theorem sendSetup_spec (hpc : s.pc = .setup) :
    ∃ p, sendSetup host s ev = .ok p ∧ Turn host s ev p := by
  unfold sendSetup
  split
  case h_1 fromAddr toAddr content hfrom harp hto hopen =>
    have hreq := sendReq_eq host (s.opened toAddr fromAddr ev) ev
    refine ⟨_, ?_, turn_await (.start hpc hfrom harp hto hopen)⟩
    simp only [hreq, bind, Except.bind, pure, Except.pure]
  case h_2 hnone =>
    -- some call of the setup failed, whichever it was
    refine ⟨_, rfl, .noSetup hpc ?_⟩
    by_contra hall
    obtain ⟨hfrom, harp, hto, hopen⟩ : ev.getLocalMacAddr ≠ none ∧ ev.getMacFromArp = true ∧
        ev.macAton ≠ none ∧ ev.fopen ≠ none := by simpa using hall
    obtain ⟨fromAddr, hfrom⟩ := Option.ne_none_iff_exists'.mp hfrom
    obtain ⟨toAddr, hto⟩ := Option.ne_none_iff_exists'.mp hto
    obtain ⟨content, hopen⟩ := Option.ne_none_iff_exists'.mp hopen
    exact hnone fromAddr toAddr content hfrom harp hto hopen

theorem turn_setup (hpc : s.pc = .setup) : Turn host s ev (fileSendTurn host s ev) := by
  obtain ⟨p, hp, hturn⟩ : ∃ p, sendSetup host s ev = .ok p ∧ Turn host s ev p :=
    sendSetup_spec hpc
  simp only [fileSendTurn, hpc, hp]
  exact hturn

theorem turn_loop {fp : InStream} (hpc : s.pc = .loop fp) :
    Turn host s ev (fileSendTurn host s ev) := by
  simp only [fileSendTurn, hpc, sendNext]
  cases heof : fp.eof with
  | true =>
      simp only [if_true, sendEnd_eq, bind, Except.bind, pure, Except.pure]
      exact turn_await (.finish hpc heof)
  | false =>
      have hchunk := sendChunk_eq host s (fp.fread_length_le TRANSMITSIZE ev.fread) ev.sendto
      simp only [Bool.false_eq_true, if_false, hchunk, bind, Except.bind, pure, Except.pure]
      exact turn_await (.data hpc heof)

/-- **What one turn of `fileSend` does**, whatever comes back and however
the calls end. -/
theorem fileSendTurn_spec (host : Host) (s : SendState) (ev : SendEvent) :
    Turn host s ev (fileSendTurn host s ev) := by
  cases hpc : s.pc with
  | setup => exact turn_setup hpc
  | loop fp => exact turn_loop hpc
  | reqAck attr fp =>
      simp only [fileSendTurn, hpc, recvAck_eq]
      by_cases hr : replyTo host ev = .status SUCCESS
      · rw [if_neg (not_not_intro (ret_eq_success_iff.mpr hr)), hr]
        exact .startAcked hpc hr
      · rw [if_pos (fun h => hr (ret_eq_success_iff.mp h))]
        simpa only [SendState.record, hpc] using Turn.startRefused hpc hr
  | dataAck chunk fp =>
      simp only [fileSendTurn, hpc, recvAck_eq]
      by_cases hr : replyTo host ev = .status SUCCESS
      · rw [if_neg (not_not_intro (ret_eq_success_iff.mpr hr)), hr]
        exact .chunkAcked hpc hr
      · rw [if_pos (fun h => hr (ret_eq_success_iff.mp h))]
        simpa only [SendState.record, hpc] using Turn.chunkRefused hpc hr
  | endAck =>
      simp only [fileSendTurn, hpc, recvAck_eq]
      simpa only [SendState.record, hpc] using Turn.finished hpc

/-- With the file open and the START on its way, the sender waits. -/
theorem fileSendTurn_started {toAddr fromAddr : Mac} {content : List Byte}
    (hpc : s.pc = .setup) (hfrom : ev.getLocalMacAddr = some fromAddr)
    (harp : ev.getMacFromArp = true) (hto : ev.macAton = some toAddr)
    (hopen : ev.fopen = some content) (hsend : ev.sendto = true) :
    fileSendTurn host s ev = .running ((s.opened toAddr fromAddr ev).issue host
      (.start (fileAttr (s.opened toAddr fromAddr ev) ev))
      (.reqAck (fileAttr (s.opened toAddr fromAddr ev) ev) (InStream.ofContent content))) := by
  have hreq := sendReq_eq host (s.opened toAddr fromAddr ev) ev
  rw [hsend, if_pos rfl] at hreq
  simp only [fileSendTurn, hpc, sendSetup, hfrom, harp, hto, hopen, hreq, bind, Except.bind, pure,
    Except.pure]
  exact await_sent

end Spec

end BeEasy.FileTransmit
