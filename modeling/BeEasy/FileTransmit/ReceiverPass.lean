import BeEasy.FileTransmit.Receiver

/-!
# FileTransmit — Receiver pass

Everything one pass of `fileRecv` can do, as a relation with one
constructor for each outcome (`Pass`). `recvFileData` is settled first, by
the length its frame names; `fileRecvPass_spec` then covers every frame
and every outcome of the calls, and the theorems about runs use nothing
else about the code.
-/

namespace BeEasy.FileTransmit

open CVerif

/-! ## What a data frame says

The length, the sum and the payload of the ING frame in a buffer, as
`recvFileData` decodes them. -/

def dataLen (host : Host) (frame : EthernetFrame) : BitVec 32 :=
  ntohl host (loadInt host (field frame.data 4 4))

def dataSum (host : Host) (frame : EthernetFrame) : BitVec 32 :=
  ntohl host (loadInt host (field frame.data 8 4))

def payload (host : Host) (frame : EthernetFrame) : List Byte :=
  (frame.data.drop 12).take (dataLen host frame).toNat

/-- The state after the stream of the open file took bytes. -/
def RecvState.append (s : RecvState) (file : OutFile) (bytes : List Byte) (drained : Nat) :
    RecvState :=
  { s with fp := some (file.fwrite bytes drained) }

/-- The state after a packet was counted. -/
def RecvState.count (s : RecvState) : RecvState := { s with recvCount := s.recvCount + 1 }

section DataFrames

variable {host : Host} (s : RecvState) {fwrite drained : Nat}

theorem length_payload {frame : EthernetFrame} (h : (dataLen host frame).toNat ≤ TRANSMITSIZE) :
    (payload host frame).length = (dataLen host frame).toNat := by
  rw [payload, List.length_take, List.length_drop, EthernetFrame.length_data]
  simp only [TRANSMITSIZE, MAX_ETHERNET_DATA_SIZE] at *
  omega

/-! `fData` holds the first twelve bytes of the frame's data only. -/

theorem dataLen_head (frame : EthernetFrame) :
    ntohl host (loadInt host (field (frame.data.take 12) 4 4)) = dataLen host frame := by
  rw [field_take (by decide), dataLen]

theorem dataSum_head (frame : EthernetFrame) :
    ntohl host (loadInt host (field (frame.data.take 12) 8 4)) = dataSum host frame := by
  rw [field_take (by decide), dataSum]

section Decode

variable {frame : EthernetFrame} {status len sum : BitVec 32} {rest : List Byte}
  (h : frame.data = beBytes 4 status.toNat ++ (beBytes 4 len.toNat
    ++ (beBytes 4 sum.toNat ++ rest)))
include h

theorem dataLen_eq : dataLen host frame = len := by
  rw [dataLen, h, field_skip (by simp), length_beBytes, field_here (length_beBytes 4 _),
    ntohl_loadInt_beBytes]

theorem dataSum_eq : dataSum host frame = sum := by
  rw [dataSum, h, field_skip (by simp), length_beBytes, field_skip (by simp), length_beBytes,
    field_here (length_beBytes 4 _), ntohl_loadInt_beBytes]

theorem payload_eq : payload host frame = rest.take len.toNat := by
  have hdrop : frame.data.drop 12 = rest := by
    rw [h, ← List.append_assoc, ← List.append_assoc, List.drop_left' (by simp)]
  rw [payload, dataLen_eq h, hdrop]

end Decode

theorem toInt_of_le_transmitSize {len : BitVec 32} (h : len.toNat ≤ TRANSMITSIZE) :
    len.toInt = len.toNat := by
  rw [BitVec.toInt_eq_toNat_cond, if_pos]
  simp only [TRANSMITSIZE] at h
  omega

/-- A length past the end of `frame->data` is followed off the frame. -/
theorem recvFileData_overrun (h : TRANSMITSIZE < (dataLen host s.frame).toNat) :
    recvFileData host s fwrite drained = .error .outOfBounds := by
  have hover : s.frame.data.length < SIZEOF_FILEDATA - TRANSMITSIZE
      + (dataLen host s.frame).toNat := by
    rw [EthernetFrame.length_data]
    simp only [SIZEOF_FILEDATA, TRANSMITSIZE, MAX_ETHERNET_DATA_SIZE] at *
    omega
  have hhead : readBytes s.frame.data 0 (SIZEOF_FILEDATA - TRANSMITSIZE)
      = .ok (s.frame.data.take 12) := readBytes_ok (by rw [EthernetFrame.length_data]; decide)
  simp only [recvFileData, hhead, bind, Except.bind, dataLen_head]
  rw [readBytes_outOfBounds hover]

/-- Within the bound the copy, the sum and the write are of the payload. -/
theorem recvFileData_eq (h : (dataLen host s.frame).toNat ≤ TRANSMITSIZE) :
    recvFileData host s fwrite drained =
      if dataSum host s.frame ≠ sumBytes (payload host s.frame) then .ok ⟨s, -1, .none⟩
      else match s.fp with
        | none => .error .nullStream
        | some file =>
            let written := (payload host s.frame).take fwrite
            let t := { s with fp := some (file.fwrite written drained) }
            if written.length ≠ (dataLen host s.frame).toNat then
              .ok ⟨t, -1, .fwrite file.id written⟩
            else
              .ok ⟨{ t with recvCount := s.recvCount + 1 }, 0, .fwrite file.id written⟩ := by
  have hdata : s.frame.data.length = 1500 := s.frame.length_data
  have hlen := length_payload h
  have hbound : (dataLen host s.frame).toNat ≤ 1488 := h
  have hhead : readBytes s.frame.data 0 (SIZEOF_FILEDATA - TRANSMITSIZE)
      = .ok (s.frame.data.take 12) := readBytes_ok (by rw [hdata]; decide)
  have hcopy : readBytes s.frame.data (SIZEOF_FILEDATA - TRANSMITSIZE)
      (dataLen host s.frame).toNat = .ok (payload host s.frame) :=
    readBytes_ok (by simp only [SIZEOF_FILEDATA, TRANSMITSIZE, hdata]; omega)
  have hbuf : writeBytes (List.replicate TRANSMITSIZE 0) 0 (payload host s.frame)
      = .ok (payload host s.frame
          ++ List.replicate (TRANSMITSIZE - (payload host s.frame).length) 0) :=
    writeBytes_zeros (by rwa [hlen])
  have hsum : ∀ rest, checksum (payload host s.frame ++ rest) (dataLen host s.frame).toInt
      = .ok (sumBytes (payload host s.frame)) := by
    intro rest
    rw [toInt_of_le_transmitSize h, checksum_eq (by rw [List.length_append]; omega),
      List.take_left' hlen]
  have hout : ∀ rest, readBytes (payload host s.frame ++ rest) 0 (dataLen host s.frame).toNat
      = .ok (payload host s.frame) := by
    intro rest
    rw [readBytes_ok (by rw [List.length_append]; omega), List.drop_zero, List.take_left' hlen]
  simp only [recvFileData, hhead, bind, Except.bind, dataLen_head, dataSum_head, hcopy, hbuf,
    hsum, hout]
  split
  · rfl
  · cases s.fp with
    | none => rfl
    | some file =>
        simp only
        split <;> rfl

section

variable {file : OutFile} (hlen : (dataLen host s.frame).toNat ≤ TRANSMITSIZE)
include hlen

theorem recvFileData_badSum (hsum : dataSum host s.frame ≠ sumBytes (payload host s.frame)) :
    recvFileData host s fwrite drained = .ok ⟨s, -1, .none⟩ := by
  rw [recvFileData_eq s hlen, if_pos hsum]

variable (hsum : dataSum host s.frame = sumBytes (payload host s.frame))
include hsum

theorem recvFileData_notOpen (hfp : s.fp = none) :
    recvFileData host s fwrite drained = .error .nullStream := by
  rw [recvFileData_eq s hlen, if_neg (not_not_intro hsum), hfp]

theorem recvFileData_appended (hfp : s.fp = some file)
    (hwrite : (dataLen host s.frame).toNat ≤ fwrite) :
    recvFileData host s fwrite drained
      = .ok ⟨(s.append file (payload host s.frame) drained).count, 0,
          .fwrite file.id (payload host s.frame)⟩ := by
  have hall : (payload host s.frame).take fwrite = payload host s.frame :=
    List.take_of_length_le (by rw [length_payload hlen]; exact hwrite)
  rw [recvFileData_eq s hlen, if_neg (not_not_intro hsum), hfp]
  simp only [hall, length_payload hlen, ne_eq, not_true_eq_false, if_false]
  rfl

theorem recvFileData_cutShort (hfp : s.fp = some file)
    (hwrite : fwrite < (dataLen host s.frame).toNat) :
    recvFileData host s fwrite drained
      = .ok ⟨s.append file ((payload host s.frame).take fwrite) drained, -1,
          .fwrite file.id ((payload host s.frame).take fwrite)⟩ := by
  have hshort : ((payload host s.frame).take fwrite).length ≠ (dataLen host s.frame).toNat := by
    rw [List.length_take, length_payload hlen]
    omega
  rw [recvFileData_eq s hlen, if_neg (not_not_intro hsum), hfp]
  simp only [if_pos hshort]
  rfl

end

end DataFrames

/-! ## What a pass does -/

/-- The frame a pass handles: the buffer after a receive that succeeded. -/
def received (host : Host) (s : RecvState) (ev : RecvEvent) : Option EthernetFrame :=
  let (frame, ret) := recvEtherFrame host s.frame ev.recvfrom
  if ret < 0 then none else some frame

/-- The packet that carries an ack. -/
def ackPacket (host : Host) (frame : EthernetFrame) (stat : BitVec 32) : Packet :=
  header host frame.srcAddr frame.dstAddr FILETRANSMIT ++ beBytes 4 stat.toNat

/-- The state after the ack for the frame in the buffer. -/
def RecvState.reply (host : Host) (s : RecvState) (effect : Effect) (stat : BitVec 32)
    (sendto : Bool) : RecvState :=
  { s with
    history := s.history ++ [⟨s.frame, effect, stat⟩]
    sent := s.sent ++ if sendto then [ackPacket host s.frame stat] else [] }

/-- The output file. -/
def RecvState.output (s : RecvState) : List Byte :=
  match s.fp with
  | none => []
  | some file => file.content

section Fields

variable (host : Host) (s : RecvState) (effect : Effect) (stat : BitVec 32) (ok : Bool)
  (file : OutFile) (bytes : List Byte) (n drained : Nat)

@[simp] theorem OutFile.drain_id : (file.drain n).id = file.id := rfl

@[simp] theorem OutFile.drain_name : (file.drain n).name = file.name := rfl

/-- Writing what is held back changes nothing about all that was taken. -/
@[simp] theorem OutFile.drain_content : (file.drain n).content = file.content := by
  show file.stored ++ file.buffer.take n ++ file.buffer.drop n = file.stored ++ file.buffer
  rw [List.append_assoc, List.take_append_drop]

@[simp] theorem OutFile.fwrite_id : (file.fwrite bytes drained).id = file.id := rfl

@[simp] theorem OutFile.fwrite_content :
    (file.fwrite bytes drained).content = file.content ++ bytes := by
  rw [OutFile.fwrite, OutFile.drain_content, OutFile.content, OutFile.content, List.append_assoc]

@[simp] theorem RecvState.quit_history : (s.quit n).history = s.history := rfl

@[simp] theorem RecvState.quit_sent : (s.quit n).sent = s.sent := rfl

/-- A close leaves all that was taken. -/
@[simp] theorem RecvState.quit_output : (s.quit n).output = s.output := by
  cases hfp : s.fp with
  | none => simp only [RecvState.output, RecvState.quit, hfp, Option.map_none]
  | some file =>
      simp only [RecvState.output, RecvState.quit, hfp, Option.map_some, OutFile.drain_content]

@[simp] theorem RecvState.reply_history :
    (s.reply host effect stat ok).history = s.history ++ [⟨s.frame, effect, stat⟩] := rfl

@[simp] theorem RecvState.reply_fp : (s.reply host effect stat ok).fp = s.fp := rfl

@[simp] theorem RecvState.reply_output : (s.reply host effect stat ok).output = s.output := rfl

@[simp] theorem RecvState.reply_fileSize :
    (s.reply host effect stat ok).fileSize = s.fileSize := rfl

@[simp] theorem RecvState.append_history :
    (s.append file bytes drained).history = s.history := rfl

@[simp] theorem RecvState.append_frame : (s.append file bytes drained).frame = s.frame := rfl

@[simp] theorem RecvState.append_fp :
    (s.append file bytes drained).fp = some (file.fwrite bytes drained) := rfl

@[simp] theorem RecvState.count_history : s.count.history = s.history := rfl

@[simp] theorem RecvState.count_frame : s.count.frame = s.frame := rfl

@[simp] theorem RecvState.count_fp : s.count.fp = s.fp := rfl

@[simp] theorem createFile_history : (createFile host s ok).state.history = s.history := by
  cases ok <;> rfl

@[simp] theorem createFile_frame : (createFile host s ok).state.frame = s.frame := by
  cases ok <;> rfl

@[simp] theorem flushFile_history : (flushFile s ok n).state.history = s.history := by
  unfold flushFile
  cases s.fp <;> rfl

@[simp] theorem flushFile_frame : (flushFile s ok n).state.frame = s.frame := by
  unfold flushFile
  cases s.fp <;> rfl

@[simp] theorem flushFile_sent : (flushFile s ok n).state.sent = s.sent := by
  unfold flushFile
  cases s.fp <;> rfl

@[simp] theorem flushFile_fileCount : (flushFile s ok n).state.fileCount = s.fileCount := by
  unfold flushFile
  cases s.fp <;> rfl

@[simp] theorem flushFile_recvCount : (flushFile s ok n).state.recvCount = s.recvCount := by
  unfold flushFile
  cases s.fp <;> rfl

theorem flushFile_effect : (flushFile s ok n).effect = .fflush (s.fp.map OutFile.id) ok := by
  cases hfp : s.fp <;> simp [flushFile, hfp]

@[simp] theorem flushFile_output : (flushFile s ok n).state.output = s.output := by
  cases hfp : s.fp with
  | none => simp only [RecvState.output, flushFile, hfp]
  | some file => simp only [RecvState.output, flushFile, hfp, OutFile.drain_content]

@[simp] theorem createFile_fileSize : (createFile host s ok).state.fileSize
    = ntohll host (loadLong host (field s.frame.data 8 8)) := by
  cases ok <;> rfl

end Fields

section Passes

variable (host : Host) (s : RecvState) (ev : RecvEvent)

theorem answer_eq (h : Handled) (stat : BitVec 32) (sendto : Bool) :
    answer host h stat sendto = .ok (h.state.reply host h.effect stat sendto) := by
  have hack : sendAck host h.state.frame (htonl host stat) sendto = .ok
      (if sendto then (0, some (ackPacket host h.state.frame stat)) else (-1, none)) := by
    rw [sendAck, storeInt_htonl]
    exact sendEtherData_ok host _ _ FILETRANSMIT (length_beBytes 4 _) (by decide) sendto
  rw [answer, hack]
  cases sendto <;> rfl

/-- Everything a pass of the loop can do. -/
inductive Pass : Progress RecvState Int Fault → Prop
  | notReceived (hr : received host s ev = none) :
      Pass (.returned { s with frame := (recvEtherFrame host s.frame ev.recvfrom).1 } (-1))
  | created {frame} (hr : received host s ev = some frame)
      (hst : frameStatus host frame = START) (hopen : ev.fopen = true) :
      Pass (.running ((createFile host { s with frame } true).state.reply host
        (.fopen true) SUCCESS ev.sendto))
  | notCreated {frame} (hr : received host s ev = some frame)
      (hst : frameStatus host frame = START) (hopen : ev.fopen = false) :
      Pass (.returned (((createFile host { s with frame } false).state.reply host
        (.fopen false) FAIL ev.sendto).quit ev.fclose) 0)
  | overrun {frame} (hr : received host s ev = some frame)
      (hst : frameStatus host frame = ING) (hlen : TRANSMITSIZE < (dataLen host frame).toNat) :
      Pass (.faulted .outOfBounds)
  | badSum {frame} (hr : received host s ev = some frame)
      (hst : frameStatus host frame = ING) (hlen : (dataLen host frame).toNat ≤ TRANSMITSIZE)
      (hsum : dataSum host frame ≠ sumBytes (payload host frame)) :
      Pass (.returned ((RecvState.reply host { s with frame } .none FAIL ev.sendto).quit
        ev.fclose) 0)
  | notOpen {frame} (hr : received host s ev = some frame)
      (hst : frameStatus host frame = ING) (hlen : (dataLen host frame).toNat ≤ TRANSMITSIZE)
      (hsum : dataSum host frame = sumBytes (payload host frame)) (hfp : s.fp = none) :
      Pass (.faulted .nullStream)
  | appended {frame file} (hr : received host s ev = some frame)
      (hst : frameStatus host frame = ING) (hlen : (dataLen host frame).toNat ≤ TRANSMITSIZE)
      (hsum : dataSum host frame = sumBytes (payload host frame)) (hfp : s.fp = some file)
      (hwrite : (dataLen host frame).toNat ≤ ev.fwrite) :
      Pass (.running (RecvState.reply host
        (RecvState.append { s with frame } file (payload host frame) ev.drained).count
        (.fwrite file.id (payload host frame)) SUCCESS ev.sendto))
  | cutShort {frame file} (hr : received host s ev = some frame)
      (hst : frameStatus host frame = ING) (hlen : (dataLen host frame).toNat ≤ TRANSMITSIZE)
      (hsum : dataSum host frame = sumBytes (payload host frame)) (hfp : s.fp = some file)
      (hwrite : ev.fwrite < (dataLen host frame).toNat) :
      Pass (.returned ((RecvState.reply host
        (RecvState.append { s with frame } file ((payload host frame).take ev.fwrite) ev.drained)
        (.fwrite file.id ((payload host frame).take ev.fwrite)) FAIL ev.sendto).quit ev.fclose) 0)
  | flushed {frame} (hr : received host s ev = some frame)
      (hst : frameStatus host frame = END) (hflush : ev.fflush = true) :
      Pass (.returned (((flushFile { s with frame } true ev.flushed).state.reply host
        (.fflush (s.fp.map OutFile.id) true) SUCCESS ev.sendto).quit ev.fclose) 0)
  | notFlushed {frame} (hr : received host s ev = some frame)
      (hst : frameStatus host frame = END) (hflush : ev.fflush = false) :
      Pass (.returned (((flushFile { s with frame } false ev.flushed).state.reply host
        (.fflush (s.fp.map OutFile.id) false) FAIL ev.sendto).quit ev.fclose) 0)
  | unknown {frame} (hr : received host s ev = some frame)
      (hstart : frameStatus host frame ≠ START) (hing : frameStatus host frame ≠ ING)
      (hend : frameStatus host frame ≠ END) :
      Pass (.running (RecvState.reply host { s with frame } .none SUCCESS ev.sendto))

end Passes

theorem recvEtherFrame_ret (host : Host) (frame : EthernetFrame) (rx : Option Packet) :
    (recvEtherFrame host frame rx).2 = -1 ∨ (recvEtherFrame host frame rx).2 = 0 := by
  cases rx with
  | none => exact .inl rfl
  | some pkt =>
      simp only [recvEtherFrame]
      split
      · exact .inl rfl
      · exact .inr rfl

/-- A frame came in exactly when `recvEtherFrame` returns 0. -/
theorem received_eq_some {host : Host} {s : RecvState} {ev : RecvEvent} {frame : EthernetFrame} :
    received host s ev = some frame ↔ recvEtherFrame host s.frame ev.recvfrom = (frame, 0) := by
  rcases h : recvEtherFrame host s.frame ev.recvfrom with ⟨f, ret⟩
  have hret := recvEtherFrame_ret host s.frame ev.recvfrom
  rw [h] at hret
  simp only at hret
  rcases hret with hret | hret
  · simp [received, h, hret]
  · simp [received, h, hret]

/-- A frame some host sent with the protocol's type is handled. -/
theorem received_of_sent {host sender : Host} {s : RecvState} {ev : RecvEvent}
    {toAddr fromAddr : Mac} {data : List Byte}
    (hrecv : ev.recvfrom = some (header sender toAddr fromAddr FILETRANSMIT ++ data)) :
    received host s ev
      = some (s.frame.fill (header sender toAddr fromAddr FILETRANSMIT ++ data)) := by
  rw [received_eq_some, hrecv, recvEtherFrame_sent]

section Spec

variable {host : Host} {s : RecvState} {ev : RecvEvent} {frame : EthernetFrame}

/-- The three ways a pass ends once its handler is done. -/
theorem handleFrame_fail {h : Handled} {flag : Bool} {ret : Int}
    (hd : dispatch host s ret ev = .ok (h, flag)) (hret : h.ret = -1) :
    handleFrame host s ret ev
      = .ok (.returned ((h.state.reply host h.effect FAIL ev.sendto).quit ev.fclose) 0) := by
  simp only [handleFrame, hd, bind, Except.bind, answer_eq]
  rw [if_pos (by omega)]
  rfl

theorem handleFrame_goOn {h : Handled} {ret : Int}
    (hd : dispatch host s ret ev = .ok (h, true)) (hret : h.ret = 0) :
    handleFrame host s ret ev
      = .ok (.running (h.state.reply host h.effect SUCCESS ev.sendto)) := by
  simp only [handleFrame, hd, bind, Except.bind, answer_eq]
  rw [if_neg (by omega), if_pos hret]
  rfl

theorem handleFrame_done {h : Handled} {ret : Int}
    (hd : dispatch host s ret ev = .ok (h, false)) (hret : h.ret = 0) :
    handleFrame host s ret ev
      = .ok (.returned ((h.state.reply host h.effect SUCCESS ev.sendto).quit ev.fclose) 0) := by
  simp only [handleFrame, hd, bind, Except.bind, answer_eq]
  rw [if_neg (by omega), if_pos hret]
  rfl

theorem handleFrame_fault {f : Fault} {ret : Int} (hd : dispatch host s ret ev = .error f) :
    handleFrame host s ret ev = .error f := by
  simp only [handleFrame, hd, bind, Except.bind]

theorem dispatch_start {ret : Int} (hst : frameStatus host s.frame = START) :
    dispatch host s ret ev = .ok (createFile host s ev.fopen, true) := by
  rw [dispatch, if_pos hst]

theorem dispatch_ing {ret : Int} (hst : frameStatus host s.frame = ING) :
    dispatch host s ret ev = (recvFileData host s ev.fwrite ev.drained).map (·, true) := by
  rw [dispatch, hst, if_neg ING_ne_START, if_pos rfl]

theorem dispatch_end {ret : Int} (hst : frameStatus host s.frame = END) :
    dispatch host s ret ev = .ok (flushFile s ev.fflush ev.flushed, false) := by
  rw [dispatch, hst, if_neg END_ne_START, if_neg END_ne_ING, if_pos rfl]

theorem fileRecvPass_received (hr : received host s ev = some frame)
    {p : Progress RecvState Int Fault} (h : handleFrame host { s with frame } 0 ev = .ok p) :
    fileRecvPass host s ev = p := by
  rw [received_eq_some] at hr
  simp only [fileRecvPass, hr, h]
  rfl

theorem fileRecvPass_fault (hr : received host s ev = some frame) {f : Fault}
    (h : handleFrame host { s with frame } 0 ev = .error f) :
    fileRecvPass host s ev = .faulted f := by
  rw [received_eq_some] at hr
  simp only [fileRecvPass, hr, h]
  rfl

theorem fileRecvPass_created (hr : received host s ev = some frame)
    (hst : frameStatus host frame = START) (hopen : ev.fopen = true) :
    fileRecvPass host s ev = .running ((createFile host { s with frame } true).state.reply host
      (.fopen true) SUCCESS ev.sendto) := by
  have hd : dispatch host { s with frame } 0 ev
      = .ok (createFile host { s with frame } ev.fopen, true) := dispatch_start hst
  rw [hopen] at hd
  exact fileRecvPass_received hr (handleFrame_goOn hd rfl)

theorem fileRecvPass_notCreated (hr : received host s ev = some frame)
    (hst : frameStatus host frame = START) (hopen : ev.fopen = false) :
    fileRecvPass host s ev = .returned (((createFile host { s with frame } false).state.reply host
      (.fopen false) FAIL ev.sendto).quit ev.fclose) 0 := by
  have hd : dispatch host { s with frame } 0 ev
      = .ok (createFile host { s with frame } ev.fopen, true) := dispatch_start hst
  rw [hopen] at hd
  exact fileRecvPass_received hr (handleFrame_fail hd rfl)

theorem fileRecvPass_appended {file : OutFile} (hr : received host s ev = some frame)
    (hst : frameStatus host frame = ING) (hlen : (dataLen host frame).toNat ≤ TRANSMITSIZE)
    (hsum : dataSum host frame = sumBytes (payload host frame)) (hfp : s.fp = some file)
    (hwrite : (dataLen host frame).toNat ≤ ev.fwrite) :
    fileRecvPass host s ev = .running (RecvState.reply host
      (RecvState.append { s with frame } file (payload host frame) ev.drained).count
      (.fwrite file.id (payload host frame)) SUCCESS ev.sendto) := by
  have hd : dispatch host { s with frame } 0 ev
      = (recvFileData host { s with frame } ev.fwrite ev.drained).map (·, true) := dispatch_ing hst
  rw [recvFileData_appended { s with frame } hlen hsum hfp hwrite] at hd
  exact fileRecvPass_received hr (handleFrame_goOn hd rfl)

theorem fileRecvPass_flushed (hr : received host s ev = some frame)
    (hst : frameStatus host frame = END) (hflush : ev.fflush = true) :
    fileRecvPass host s ev = .returned (((flushFile { s with frame } true ev.flushed).state.reply
      host (.fflush (s.fp.map OutFile.id) true) SUCCESS ev.sendto).quit ev.fclose) 0 := by
  have hd : dispatch host { s with frame } 0 ev
      = .ok (flushFile { s with frame } ev.fflush ev.flushed, false) := dispatch_end hst
  rw [hflush] at hd
  have hpass := fileRecvPass_received hr (handleFrame_done hd rfl)
  rwa [flushFile_effect] at hpass

theorem fileRecvPass_notReceived (hr : received host s ev = none) :
    fileRecvPass host s ev
      = .returned { s with frame := (recvEtherFrame host s.frame ev.recvfrom).1 } (-1) := by
  have hret : (recvEtherFrame host s.frame ev.recvfrom).2 < 0 := by
    by_contra hge
    simp [received, hge] at hr
  simp only [fileRecvPass, if_pos hret]

theorem pass_start (hr : received host s ev = some frame) (hst : frameStatus host frame = START) :
    Pass host s ev (fileRecvPass host s ev) := by
  cases hopen : ev.fopen with
  | true =>
      rw [fileRecvPass_created hr hst hopen]
      exact .created hr hst hopen
  | false =>
      rw [fileRecvPass_notCreated hr hst hopen]
      exact .notCreated hr hst hopen

theorem pass_ing (hr : received host s ev = some frame) (hst : frameStatus host frame = ING) :
    Pass host s ev (fileRecvPass host s ev) := by
  have hd : dispatch host { s with frame } 0 ev
      = (recvFileData host { s with frame } ev.fwrite ev.drained).map (·, true) := dispatch_ing hst
  by_cases hlen : (dataLen host frame).toNat ≤ TRANSMITSIZE
  · by_cases hsum : dataSum host frame = sumBytes (payload host frame)
    · cases hfp : s.fp with
      | none =>
          rw [recvFileData_notOpen { s with frame } hlen hsum hfp] at hd
          rw [fileRecvPass_fault hr (handleFrame_fault hd)]
          exact .notOpen hr hst hlen hsum hfp
      | some file =>
          by_cases hwrite : (dataLen host frame).toNat ≤ ev.fwrite
          · rw [fileRecvPass_appended hr hst hlen hsum hfp hwrite]
            exact .appended hr hst hlen hsum hfp hwrite
          · rw [recvFileData_cutShort { s with frame } hlen hsum hfp (Nat.lt_of_not_le hwrite)] at hd
            rw [fileRecvPass_received hr (handleFrame_fail hd rfl)]
            exact .cutShort hr hst hlen hsum hfp (Nat.lt_of_not_le hwrite)
    · rw [recvFileData_badSum { s with frame } hlen hsum] at hd
      rw [fileRecvPass_received hr (handleFrame_fail hd rfl)]
      exact .badSum hr hst hlen hsum
  · have hover : TRANSMITSIZE < (dataLen host frame).toNat := Nat.lt_of_not_le hlen
    rw [recvFileData_overrun { s with frame } hover] at hd
    rw [fileRecvPass_fault hr (handleFrame_fault hd)]
    exact .overrun hr hst hover

theorem pass_end (hr : received host s ev = some frame) (hst : frameStatus host frame = END) :
    Pass host s ev (fileRecvPass host s ev) := by
  cases hflush : ev.fflush with
  | true =>
      rw [fileRecvPass_flushed hr hst hflush]
      exact .flushed hr hst hflush
  | false =>
      have hd : dispatch host { s with frame } 0 ev
          = .ok (flushFile { s with frame } ev.fflush ev.flushed, false) := dispatch_end hst
      rw [hflush] at hd
      rw [fileRecvPass_received hr (handleFrame_fail hd rfl), flushFile_effect]
      exact .notFlushed hr hst hflush

/-- **What one pass of `fileRecv` does**, whatever comes in and however the
file operations end. -/
theorem fileRecvPass_spec (host : Host) (s : RecvState) (ev : RecvEvent) :
    Pass host s ev (fileRecvPass host s ev) := by
  cases hr : received host s ev with
  | none =>
      rw [fileRecvPass_notReceived hr]
      exact .notReceived hr
  | some frame =>
      by_cases hstart : frameStatus host frame = START
      · exact pass_start hr hstart
      by_cases hing : frameStatus host frame = ING
      · exact pass_ing hr hing
      by_cases hend : frameStatus host frame = END
      · exact pass_end hr hend
      -- no branch of the `switch` touched `ret`, which is still 0
      have hd : dispatch host { s with frame } 0 ev = .ok (⟨{ s with frame }, 0, .none⟩, true) := by
        rw [dispatch, if_neg hstart, if_neg hing, if_neg hend]
      rw [fileRecvPass_received hr (handleFrame_goOn hd rfl)]
      exact .unknown hr hstart hing hend

end Spec

/-! ## Passes on a given frame -/

/-- A pass that receives the packet and whose other calls all succeed. -/
def deliver (pkt : Packet) : RecvEvent where
  recvfrom := some pkt
  fopen := true
  fwrite := TRANSMITSIZE
  drained := TRANSMITSIZE
  fflush := true
  flushed := 0
  fclose := TRANSMITSIZE
  sendto := true

/-- What is asked of the received frame is asked of this one. -/
theorem forall_received {host : Host} {s : RecvState} {ev : RecvEvent} {frame : EthernetFrame}
    (hr : received host s ev = some frame)
    (Q : EthernetFrame → Prop) : (∀ f, received host s ev = some f → Q f) ↔ Q frame := by
  constructor
  · intro h
    exact h frame hr
  · intro h f hf
    cases hr.symm.trans hf
    exact h

end BeEasy.FileTransmit
