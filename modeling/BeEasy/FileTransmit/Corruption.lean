import BeEasy.FileTransmit.ReceiverPass
import BeEasy.FileTransmit.SenderTurn

/-!
# FileTransmit — Corruption

What the additive checksum is worth on the wire. One byte that changes moves
the sum by less than 256, which 32 bits do not wrap away, and one byte of the
sum field that changes is another sum; so a data packet with one such byte
changed is refused by `recvFileData` before anything is written.
-/

namespace BeEasy.FileTransmit

open CVerif

/-! ## The sum under a change of one byte -/

section Sum

variable {bs : List Byte}

theorem foldl_sum (bs : List Byte) (sum : BitVec 32) :
    bs.foldl (fun sum b => sum + b.setWidth 32) sum = sum + sumBytes bs := by
  induction bs generalizing sum with
  | nil => simp [sumBytes]
  | cons b bs ih =>
      have hfirst : sumBytes (b :: bs) = 0 + b.setWidth 32 + sumBytes bs := ih _
      rw [List.foldl_cons, ih, hfirst]
      simp [BitVec.add_assoc]

theorem sumBytes_cons (b : Byte) (bs : List Byte) :
    sumBytes (b :: bs) = b.setWidth 32 + sumBytes bs := by
  have h : sumBytes (b :: bs) = 0 + b.setWidth 32 + sumBytes bs := foldl_sum bs _
  simpa using h

/-- A byte that changes takes its old value out of the sum and puts the new
one in. -/
theorem sumBytes_set {i : Nat} (h : i < bs.length) (b : Byte) :
    sumBytes (bs.set i b) + bs[i].setWidth 32 = sumBytes bs + b.setWidth 32 := by
  induction bs generalizing i with
  | nil => cases h
  | cons x bs ih =>
      cases i with
      | zero =>
          rw [List.set_cons_zero, List.getElem_cons_zero, sumBytes_cons, sumBytes_cons]
          ac_rfl
      | succ i =>
          have htail := ih (Nat.lt_of_succ_lt_succ h)
          rw [List.set_cons_succ, List.getElem_cons_succ, sumBytes_cons, sumBytes_cons,
            BitVec.add_assoc, htail, BitVec.add_assoc]

theorem setWidth_inj {a b : Byte} (h : a.setWidth 32 = b.setWidth 32) : a = b := by
  apply BitVec.eq_of_toNat_eq
  have hnat := congrArg BitVec.toNat h
  have ha := a.isLt
  have hb := b.isLt
  simp only [BitVec.toNat_setWidth] at hnat
  omega

/-- **The checksum sees a change of one byte.** -/
theorem sumBytes_set_ne {i : Nat} {b : Byte} (h : i < bs.length) (hb : bs[i]? ≠ some b) :
    sumBytes (bs.set i b) ≠ sumBytes bs := by
  intro heq
  have hmove := sumBytes_set h b
  rw [heq] at hmove
  have hbyte : bs[i] = b := setWidth_inj ((BitVec.add_right_inj _).mp hmove)
  exact hb (by rw [List.getElem?_eq_getElem h, hbyte])

end Sum

/-! ## A data packet with one byte changed -/

theorem set_ne {bs : List Byte} {i : Nat} {b : Byte} (h : i < bs.length)
    (hb : bs[i]? ≠ some b) : bs.set i b ≠ bs := by
  intro heq
  apply hb
  rw [← List.getElem?_set_self h, heq]

theorem exists_word {bs : List Byte} (h : bs.length = 4) :
    ∃ w : BitVec 32, bs = beBytes 4 w.toNat := by
  have hbytes := beBytes_ofBeBytes bs
  have hlt : ofBeBytes bs < 2 ^ 32 := by
    have hlt := ofBeBytes_lt bs
    rwa [h] at hlt
  rw [h] at hbytes
  refine ⟨BitVec.ofNat 32 (ofBeBytes bs), ?_⟩
  rw [BitVec.toNat_ofNat, Nat.mod_eq_of_lt hlt, hbytes]

/-- Another byte in the sum field is another sum. -/
theorem beBytes_set {v : BitVec 32} {i : Nat} {b : Byte} (h : i < 4)
    (hb : (beBytes 4 v.toNat)[i]? ≠ some b) :
    ∃ w : BitVec 32, (beBytes 4 v.toNat).set i b = beBytes 4 w.toNat ∧ w ≠ v := by
  have hlen : ((beBytes 4 v.toNat).set i b).length = 4 := by rw [List.length_set, length_beBytes]
  obtain ⟨w, hw⟩ := exists_word hlen
  refine ⟨w, hw, ?_⟩
  rintro rfl
  exact set_ne (by rwa [length_beBytes]) hb hw

/-- The bytes of a data packet that the checksum is there for: the sum, and
the chunk at the front of `context`. -/
def Guarded (chunk : List Byte) (i : Nat) : Prop :=
  ETHERNET_HEADER_SIZE + 8 ≤ i ∧ i < ETHERNET_HEADER_SIZE + 12 + chunk.length

instance (chunk : List Byte) (i : Nat) : Decidable (Guarded chunk i) :=
  inferInstanceAs (Decidable (_ ∧ _))

section Packets

variable {sender host : Host} {s : SendState} {r : RecvState} {chunk padding : List Byte}
  {i : Nat} {b : Byte} (f : EthernetFrame)

/-- A change among them leaves a sum that is not the sum of what follows. -/
theorem guarded_set (h : i < 4 + chunk.length)
    (hb : (beBytes 4 (sumBytes chunk).toNat ++ (chunk ++ padding))[i]? ≠ some b) :
    ∃ (word : BitVec 32) (bytes : List Byte), bytes.length = chunk.length ∧
      word ≠ sumBytes bytes ∧
      (beBytes 4 (sumBytes chunk).toNat ++ (chunk ++ padding)).set i b
        = beBytes 4 word.toNat ++ (bytes ++ padding) := by
  have hfield : (beBytes 4 (sumBytes chunk).toNat).length = 4 := length_beBytes 4 _
  by_cases hi : i < 4
  · rw [List.getElem?_append_left (by omega)] at hb
    obtain ⟨word, hset, hne⟩ := beBytes_set hi hb
    refine ⟨word, chunk, rfl, hne, ?_⟩
    rw [List.set_append_left _ _ (by omega), hset]
  · have hchunk : i - 4 < chunk.length := by omega
    rw [List.getElem?_append_right (by omega), hfield, List.getElem?_append_left hchunk] at hb
    refine ⟨sumBytes chunk, chunk.set (i - 4) b, List.length_set, ?_, ?_⟩
    · exact (sumBytes_set_ne hchunk hb).symm
    · rw [List.set_append_right _ _ (by omega), hfield, List.set_append_left _ _ hchunk]

/-- The same of the packet, as it lies in the receiver's buffer. -/
theorem data_corrupted (hlen : chunk.length ≤ TRANSMITSIZE)
    (hi : Guarded chunk i) (hb : (requestPacket sender s (.data chunk))[i]? ≠ some b) :
    ∃ (word : BitVec 32) (bytes rest : List Byte), bytes.length = chunk.length ∧
      word ≠ sumBytes bytes ∧
      (f.fill ((requestPacket sender s (.data chunk)).set i b)).data = beBytes 4 ING.toNat
        ++ (beBytes 4 (BitVec.ofNat 32 chunk.length).toNat
          ++ (beBytes 4 word.toNat ++ (bytes ++ rest))) := by
  let hdr := header sender s.toAddr s.fromAddr FILETRANSMIT
  let front := beBytes 4 ING.toNat ++ beBytes 4 (BitVec.ofNat 32 chunk.length).toNat
  let padding := List.replicate (TRANSMITSIZE - chunk.length) (0 : Byte)
  have hpkt : requestPacket sender s (.data chunk)
      = (hdr ++ front) ++ (beBytes 4 (sumBytes chunk).toNat ++ (chunk ++ padding)) := by
    simp only [requestPacket, image_data, hdr, front, padding, List.append_assoc]
  have hfront : (hdr ++ front).length = ETHERNET_HEADER_SIZE + 8 := by
    simp [hdr, front]
  obtain ⟨hlow, hhigh⟩ := hi
  rw [hpkt, List.getElem?_append_right (by omega), hfront] at hb
  obtain ⟨word, bytes, hbytes, hne, hset⟩ := guarded_set (by omega) hb
  have hfit : (front ++ (beBytes 4 word.toNat ++ (bytes ++ padding))).length
      ≤ MAX_ETHERNET_DATA_SIZE := by
    simp only [front, padding, List.length_append, length_beBytes, List.length_replicate, hbytes,
      TRANSMITSIZE, MAX_ETHERNET_DATA_SIZE] at hlen ⊢
    omega
  refine ⟨word, bytes, padding ++ f.bytes.drop (ETHERNET_HEADER_SIZE
    + (front ++ (beBytes 4 word.toNat ++ (bytes ++ padding))).length), hbytes, hne, ?_⟩
  rw [hpkt, List.set_append_right _ _ (by omega), hfront, hset, List.append_assoc hdr,
    f.data_fill (length_header ..) hfit]
  simp only [front, List.append_assoc]

/-- What `sendFileData` put on the wire. -/
theorem sent_data {pkt : Packet} (hlen : chunk.length ≤ TRANSMITSIZE)
    (hsent : sendChunk sender s chunk true = .ok (0, some pkt)) :
    pkt = requestPacket sender s (.data chunk) := by
  rw [sendChunk_eq sender s hlen, if_pos rfl] at hsent
  cases hsent
  rfl

/-- What the receiver finds in such a frame: the status and the length that
were sent, and a sum that does not belong to the bytes. -/
structure Spoilt (host : Host) (frame : EthernetFrame) : Prop where
  status : frameStatus host frame = ING
  len : (dataLen host frame).toNat ≤ TRANSMITSIZE
  sum : dataSum host frame ≠ sumBytes (payload host frame)

theorem spoilt_corrupted (host : Host) (hlen : chunk.length ≤ TRANSMITSIZE)
    (hi : Guarded chunk i) (hb : (requestPacket sender s (.data chunk))[i]? ≠ some b) :
    Spoilt host (f.fill ((requestPacket sender s (.data chunk)).set i b)) := by
  obtain ⟨word, bytes, rest, hbytes, hne, hdata⟩ := data_corrupted f hlen hi hb
  generalize f.fill ((requestPacket sender s (.data chunk)).set i b) = frame at hdata
  have hnat : (BitVec.ofNat 32 chunk.length).toNat = chunk.length := by
    rw [BitVec.toNat_ofNat]
    simp only [TRANSMITSIZE] at hlen
    omega
  have hpayload : payload host frame = bytes := by
    rw [payload_eq hdata, hnat, ← hbytes, List.take_left]
  refine ⟨frameStatus_eq hdata, ?_, ?_⟩
  · rw [dataLen_eq hdata, hnat]
    exact hlen
  · rw [dataSum_eq hdata, hpayload]
    exact hne

/-- The change leaves the header, so the frame is taken. -/
theorem received_corrupted {ev : RecvEvent} (hi : Guarded chunk i)
    (hrecv : ev.recvfrom = some ((requestPacket sender s (.data chunk)).set i b)) :
    received host r ev = some (r.frame.fill ((requestPacket sender s (.data chunk)).set i b)) := by
  have hhdr : (header sender s.toAddr s.fromAddr FILETRANSMIT).length ≤ i := by
    rw [length_header]
    exact Nat.le_trans (Nat.le_add_right _ 8) hi.1
  rw [requestPacket, List.set_append_right _ _ hhdr] at hrecv ⊢
  exact received_of_sent hrecv

/-- `fileRecv` answers it with FAIL and ends, with the file as it was. -/
theorem fileRecvPass_corrupted {ev : RecvEvent} (hlen : chunk.length ≤ TRANSMITSIZE)
    (hi : Guarded chunk i) (hb : (requestPacket sender s (.data chunk))[i]? ≠ some b)
    (hrecv : ev.recvfrom = some ((requestPacket sender s (.data chunk)).set i b)) :
    ∃ frame, fileRecvPass host r ev = .returned
      ((RecvState.reply host { r with frame } .none FAIL ev.sendto).quit ev.fclose) 0 := by
  have hr := @received_corrupted sender host s r chunk i b ev hi hrecv
  have hspoilt := spoilt_corrupted r.frame host hlen hi hb
  generalize r.frame.fill ((requestPacket sender s (.data chunk)).set i b) = frame at hr hspoilt
  have hd : dispatch host { r with frame } 0 ev
      = (recvFileData host { r with frame } ev.fwrite ev.drained).map (·, true) :=
    dispatch_ing hspoilt.status
  rw [recvFileData_badSum { r with frame } hspoilt.len hspoilt.sum] at hd
  exact ⟨frame, fileRecvPass_received hr (handleFrame_fail hd rfl)⟩

end Packets

/-- **A data packet with one guarded byte changed is refused**: the result is
-1, the output file and the count of packets stay as they are. -/
theorem corruption_refused (sender host : Host) (s : SendState) (r : RecvState)
    (fwrite drained : Nat) {chunk : List Byte} {pkt : Packet} (hlen : chunk.length ≤ TRANSMITSIZE)
    (hsent : sendChunk sender s chunk true = .ok (0, some pkt))
    {i : Nat} {b : Byte} (hi : Guarded chunk i) (hb : pkt[i]? ≠ some b) :
    ∃ h, recvFileData host { r with frame := r.frame.fill (pkt.set i b) } fwrite drained = .ok h ∧
      h.ret = -1 ∧ h.state.fp = r.fp ∧ h.state.recvCount = r.recvCount := by
  rw [sent_data hlen hsent] at hb ⊢
  have hspoilt := spoilt_corrupted r.frame host hlen hi hb
  exact ⟨_, recvFileData_badSum _ hspoilt.len hspoilt.sum, rfl, rfl, rfl⟩

/-- An "A" that became a "B". -/
theorem corruption_refused_oneByte :
    ∃ h, recvFileData .big { RecvState.init blankFrame with
        frame := blankFrame.fill ((requestPacket .little (SendState.init [] [] blankMac blankMac)
          (.data [65])).set 26 66) } TRANSMITSIZE TRANSMITSIZE = .ok h ∧
      h.ret = -1 ∧ h.state.fp = none ∧ h.state.recvCount = 0 :=
  corruption_refused .little .big (SendState.init [] [] blankMac blankMac)
    (RecvState.init blankFrame) TRANSMITSIZE TRANSMITSIZE (by decide)
    (sendChunk_eq .little _ (by decide) true)
    (by decide) (by decide)

end BeEasy.FileTransmit
