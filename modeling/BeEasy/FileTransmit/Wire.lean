import BeEasy.FileTransmit.Ethernet

/-!
# FileTransmit — Wire

The messages of `fileTransmit/fileTransmit.c` as bytes: the status words,
the two structs `fileAttr_t` and `fileData_t`, the checksum, and the frame
and ack helpers both programs share. Every multi-byte field is stored with
`htonl`/`htonll` and read with `ntohl`/`ntohll`, so sender and receiver may
be hosts of different byte orders; the host is an argument throughout.
-/

namespace BeEasy.FileTransmit

open CVerif

def MAXLEN : Nat := 128

def START : BitVec 32 := 0x05
def END : BitVec 32 := 0x0A
def ING : BitVec 32 := 0x5A

def SUCCESS : BitVec 32 := 0xE0
def FAIL : BitVec 32 := 0xEE

def FILETRANSMIT : BitVec 16 := 0x1024
def TRANSMITSIZE : Nat := 1488

theorem ING_ne_START : ING ≠ START := by decide

theorem END_ne_START : END ≠ START := by decide

theorem END_ne_ING : END ≠ ING := by decide

theorem FAIL_ne_SUCCESS : FAIL ≠ SUCCESS := by decide

/-- `n` bytes of a struct image from offset `off` on. -/
def field (mem : List Byte) (off n : Nat) : List Byte := (mem.drop off).take n

theorem field_take {mem : List Byte} {k off n : Nat} (h : off + n ≤ k) :
    field (mem.take k) off n = field mem off n := by
  rw [field, field, List.drop_take, List.take_take, Nat.min_eq_left (by omega)]

theorem field_here {bs rest : List Byte} {n : Nat} (h : bs.length = n) :
    field (bs ++ rest) 0 n = bs := by
  rw [field, List.drop_zero, List.take_left' h]

theorem field_skip {bs rest : List Byte} {off n : Nat} (h : bs.length ≤ off) :
    field (bs ++ rest) off n = field rest (off - bs.length) n := by
  rw [field, field, List.drop_append, List.drop_of_length_le h, List.nil_append]

theorem field_at {front bs rest : List Byte} {off n : Nat} (hoff : front.length = off)
    (hn : bs.length = n) : field (front ++ (bs ++ rest)) off n = bs := by
  rw [field_skip (Nat.le_of_eq hoff), hoff, Nat.sub_self, field_here hn]

/-! ## The checksum -/

/-- `while (data_len--) sum += *p_data++`, on the bytes from `p_data` to the
end of the object it points into. A count that outlives them, a negative
one included, reads past that end. -/
def checksumLoop : List Byte → Int → BitVec 32 → Except Fault (BitVec 32)
  | [], dataLen, sum => if dataLen = 0 then .ok sum else .error .outOfBounds
  | b :: pData, dataLen, sum =>
      if dataLen = 0 then .ok sum
      else checksumLoop pData (dataLen - 1) (sum + b.setWidth 32)

def checksum (pData : List Byte) (dataLen : Int) : Except Fault (BitVec 32) :=
  checksumLoop pData dataLen 0

/-- The sum of some bytes as an `unsigned int`. -/
def sumBytes (bs : List Byte) : BitVec 32 :=
  bs.foldl (fun sum b => sum + b.setWidth 32) 0

theorem checksumLoop_eq (pData : List Byte) (n : Nat) (sum : BitVec 32)
    (h : n ≤ pData.length) :
    checksumLoop pData n sum
      = .ok ((pData.take n).foldl (fun sum b => sum + b.setWidth 32) sum) := by
  induction pData generalizing n sum with
  | nil =>
      have hn : n = 0 := by simpa using h
      subst hn
      rfl
  | cons b pData ih =>
      cases n with
      | zero => rfl
      | succ n =>
          have hne : ¬ ((n + 1 : Nat) : Int) = 0 := by omega
          have hpred : ((n + 1 : Nat) : Int) - 1 = n := by omega
          rw [checksumLoop, if_neg hne, hpred, ih n _ (by simpa using h)]
          rfl

/-- Within the object the checksum is the sum of the bytes it covers. -/
theorem checksum_eq {pData : List Byte} {n : Nat} (h : n ≤ pData.length) :
    checksum pData n = .ok (sumBytes (pData.take n)) := checksumLoop_eq pData n 0 h

/-! ## 64-bit byte order -/

/-- `htonll`. The test `1 == htonl(1)` asks whether the host is big-endian. -/
def htonll (host : Host) (val : BitVec 64) : BitVec 64 :=
  if 1 = htonl host 1 then val
  else ((htonl host (val.setWidth 32)).setWidth 64 <<< 32)
    + (htonl host ((val >>> 32).setWidth 32)).setWidth 64

def ntohll (host : Host) (val : BitVec 64) : BitVec 64 :=
  if 1 = htonl host 1 then val
  else ((ntohl host (val.setWidth 32)).setWidth 64 <<< 32)
    + (ntohl host ((val >>> 32).setWidth 32)).setWidth 64

def storeLong (host : Host) (v : BitVec 64) : List Byte := host.store 8 v.toNat
def loadLong (host : Host) (bs : List Byte) : BitVec 64 := BitVec.ofNat 64 (host.load bs)

/-- On a little-endian host both conversions change the halves over, each
with its bytes the other way round. -/
theorem htonll_toNat (v : BitVec 64) :
    (htonll .little v).toNat = 2 ^ 32 * (htonl .little (v.setWidth 32)).toNat
      + (htonl .little ((v >>> 32).setWidth 32)).toNat := by
  have hlow := (htonl .little (v.setWidth 32)).isLt
  have hhigh := (htonl .little ((v >>> 32).setWidth 32)).isLt
  rw [htonll, if_neg (by decide), BitVec.toNat_add, BitVec.toNat_shiftLeft, BitVec.toNat_setWidth,
    BitVec.toNat_setWidth, Nat.shiftLeft_eq]
  omega

/-- What `htonll` converted lies in memory in network order. -/
theorem storeLong_htonll (host : Host) (v : BitVec 64) :
    storeLong host (htonll host v) = beBytes 8 v.toNat := by
  cases host with
  | big =>
      have hbig : (1 : BitVec 32) = htonl .big 1 := by decide
      rw [htonll, if_pos hbig]
      rfl
  | little =>
      let low := htonl .little (v.setWidth 32)
      let high := htonl .little ((v >>> 32).setWidth 32)
      -- a half is what its four bytes are of the whole
      have half (n : Nat) : beBytes 4 (n % 2 ^ 32) = beBytes 4 n :=
        congrArg List.reverse (leBytes_mod 4 n)
      have hlow : leBytes 4 low.toNat = beBytes 4 v.toNat := by
        have h := storeInt_htonl .little (v.setWidth 32)
        rw [BitVec.toNat_setWidth] at h
        exact h.trans (half v.toNat)
      have hhigh : leBytes 4 high.toNat = beBytes 4 (v.toNat / 256 ^ 4) := by
        have h := storeInt_htonl .little ((v >>> 32).setWidth 32)
        rw [BitVec.toNat_setWidth, BitVec.toNat_ushiftRight, Nat.shiftRight_eq_div_pow] at h
        exact h.trans (half (v.toNat / 2 ^ 32))
      have hlt := high.isLt
      have hmod : (2 ^ 32 * low.toNat + high.toNat) % 256 ^ 4 = high.toNat := by omega
      have hdiv : (2 ^ 32 * low.toNat + high.toNat) / 256 ^ 4 = low.toNat := by omega
      calc leBytes 8 (htonll .little v).toNat
          = leBytes (4 + 4) (2 ^ 32 * low.toNat + high.toNat) := by rw [htonll_toNat]
        _ = leBytes 4 high.toNat ++ leBytes 4 low.toNat := by
            rw [leBytes_add, ← leBytes_mod 4, hmod, hdiv]
        _ = beBytes (4 + 4) v.toNat := by rw [hlow, hhigh, beBytes_add]

/-- What `ntohll` makes of eight bytes is the number they hold in network
order. -/
theorem ntohll_loadLong (host : Host) {bs : List Byte} (h : bs.length = 8) :
    ntohll host (loadLong host bs) = BitVec.ofNat 64 (ofBeBytes bs) := by
  cases host with
  | big => exact if_pos (by decide)
  | little =>
      have hfirst : (bs.take 4).length = 4 := by rw [List.length_take]; omega
      have hsecond : (bs.drop 4).length = 4 := by rw [List.length_drop]; omega
      have hle := ofLeBytes_append (bs.take 4) (bs.drop 4)
      have hbe := ofBeBytes_append (bs.take 4) (bs.drop 4)
      have hlow := ofLeBytes_lt (bs.take 4)
      have hhigh := ofLeBytes_lt (bs.drop 4)
      have hlow' := ofBeBytes_lt (bs.take 4)
      have hhigh' := ofBeBytes_lt (bs.drop 4)
      rw [List.take_append_drop, hfirst] at hle
      rw [List.take_append_drop, hsecond] at hbe
      rw [hfirst] at hlow hlow'
      rw [hsecond] at hhigh hhigh'
      have hloadLow : (loadLong .little bs).setWidth 32 = loadInt .little (bs.take 4) := by
        apply BitVec.eq_of_toNat_eq
        simp only [loadLong, loadInt, Host.load, BitVec.toNat_setWidth, BitVec.toNat_ofNat, hle]
        omega
      have hloadHigh : ((loadLong .little bs) >>> 32).setWidth 32
          = loadInt .little (bs.drop 4) := by
        apply BitVec.eq_of_toNat_eq
        simp only [loadLong, loadInt, Host.load, BitVec.toNat_setWidth, BitVec.toNat_ofNat,
          BitVec.toNat_ushiftRight, Nat.shiftRight_eq_div_pow, hle]
        omega
      apply BitVec.eq_of_toNat_eq
      calc (htonll .little (loadLong .little bs)).toNat
          = 2 ^ 32 * (ntohl .little (loadInt .little (bs.take 4))).toNat
            + (ntohl .little (loadInt .little (bs.drop 4))).toNat := by
            rw [htonll_toNat, hloadLow, hloadHigh]
            rfl
        _ = ofBeBytes bs := by
            rw [ntohl_loadInt .little hfirst, ntohl_loadInt .little hsecond, BitVec.toNat_ofNat,
              BitVec.toNat_ofNat, hbe]
            omega
        _ = (BitVec.ofNat 64 (ofBeBytes bs)).toNat := by
            rw [BitVec.toNat_ofNat, hbe]
            omega

/-- What `htonll` sent, `ntohll` receives, on hosts of any two byte orders. -/
theorem ntohll_loadLong_beBytes (host : Host) (v : BitVec 64) :
    ntohll host (loadLong host (beBytes 8 v.toNat)) = v := by
  rw [ntohll_loadLong host (length_beBytes 8 _), ofBeBytes_beBytes]
  exact BitVec.eq_of_toNat_eq (by simp; omega)

/-! ## Frames and acks -/

/-- `recvEtherFrame`: the buffer and the result. `none` is a failed
`recvfrom`; a frame of another type is refused after it was copied in. -/
def recvEtherFrame (host : Host) (frame : EthernetFrame) :
    Option Packet → EthernetFrame × Int
  | none => (frame, -1)
  | some pkt =>
      let frame := frame.fill pkt
      if ntohs host (frame.type host) ≠ FILETRANSMIT then (frame, -1) else (frame, 0)

/-- A frame some host sent with the protocol's type is taken. -/
theorem recvEtherFrame_sent (host sender : Host) (frame : EthernetFrame) (toAddr fromAddr : Mac)
    (data : List Byte) :
    recvEtherFrame host frame (some (header sender toAddr fromAddr FILETRANSMIT ++ data))
      = (frame.fill (header sender toAddr fromAddr FILETRANSMIT ++ data), 0) := by
  simp only [recvEtherFrame, EthernetFrame.type_fill, ne_eq, not_true_eq_false, if_false]

/-- The status word in front of every message: `memcpy` and `ntohl`. -/
def frameStatus (host : Host) (frame : EthernetFrame) : BitVec 32 :=
  ntohl host (loadInt host (field frame.data 0 4))

theorem frameStatus_eq {host : Host} {frame : EthernetFrame} {status : BitVec 32}
    {rest : List Byte} (h : frame.data = beBytes 4 status.toNat ++ rest) :
    frameStatus host frame = status := by
  rw [frameStatus, h, field_here (length_beBytes 4 _), ntohl_loadInt_beBytes]

/-- `recvAck`, with the uninitialised local frame as an argument. -/
def recvAck (host : Host) (stack : EthernetFrame) (rx : Option Packet) : Int :=
  let (frame, ret) := recvEtherFrame host stack rx
  if ret < 0 then -1 else (frameStatus host frame).toInt

/-- `sendAck`: four bytes back to where the frame came from. -/
def sendAck (host : Host) (frame : EthernetFrame) (stat : BitVec 32) (sendto : Bool) :
    Except Fault (Int × Option Packet) :=
  sendEtherData host frame.srcAddr frame.dstAddr FILETRANSMIT (storeInt host stat) 4 sendto

/-! ## Frames with given data -/

def blankFrame : EthernetFrame := ⟨List.replicate MAX_ETHERNET_FRAME_SIZE 0, List.length_replicate⟩

def blankMac : Mac := ⟨List.replicate MAC_BYTES 0, List.length_replicate⟩

/-- A frame with these data, sent by a little-endian host. -/
def framed (data : List Byte) : Packet :=
  header .little blankMac blankMac FILETRANSMIT ++ data

theorem framed_data (f : EthernetFrame) {data : List Byte}
    (h : data.length ≤ MAX_ETHERNET_DATA_SIZE) :
    (f.fill (framed data)).data = data ++ f.bytes.drop (ETHERNET_HEADER_SIZE + data.length) :=
  f.data_fill (length_header .little blankMac blankMac FILETRANSMIT) h

/-- A frame that is nothing but a status word shows that status. -/
theorem frameStatus_framed (host : Host) (status : BitVec 32) :
    frameStatus host (blankFrame.fill (framed (beBytes 4 status.toNat))) = status := by
  apply frameStatus_eq
  apply framed_data
  rw [length_beBytes]
  decide

/-! ## The two structs -/

/-- `fileAttr_t` with the bytes `sendReq` leaves uninitialised: the padding
after `status` and the last byte of each array. -/
structure FileAttr where
  fileSize : BitVec 64
  dstpath : List Byte
  dstfileName : List Byte
  padding : BitVec 32
  dstpathLast : Byte
  dstfileNameLast : Byte

/-- The struct image `sendReq` fills in, 272 bytes. -/
def FileAttr.image (host : Host) (a : FileAttr) : List Byte :=
  storeInt host (htonl host START) ++ host.store 4 a.padding.toNat
    ++ storeLong host (htonll host a.fileSize)
    ++ strncpy a.dstpath (MAXLEN - 1) ++ [a.dstpathLast]
    ++ strncpy a.dstfileName (MAXLEN - 1) ++ [a.dstfileNameLast]

def SIZEOF_FILEATTR : Nat := 272

@[simp] theorem FileAttr.length_image (host : Host) (a : FileAttr) :
    (a.image host).length = SIZEOF_FILEATTR := by
  simp [image, storeLong, MAXLEN, SIZEOF_FILEATTR]

/-! The three fields that `createFile` reads back. -/

section Fields

variable (host : Host) (a : FileAttr) (rest : List Byte)

theorem FileAttr.field_fileSize :
    field (a.image host ++ rest) 8 8 = beBytes 8 a.fileSize.toNat := by
  simp only [image, storeLong_htonll, List.append_assoc]
  rw [← List.append_assoc]
  exact field_at (by simp) (length_beBytes 8 _)

theorem FileAttr.field_dstpath :
    field (a.image host ++ rest) 16 (MAXLEN - 1) = strncpy a.dstpath (MAXLEN - 1) := by
  simp only [image, List.append_assoc]
  rw [← List.append_assoc, ← List.append_assoc]
  exact field_at (by simp [storeLong]) (length_strncpy _ _)

theorem FileAttr.field_dstfileName :
    field (a.image host ++ rest) 144 (MAXLEN - 1) = strncpy a.dstfileName (MAXLEN - 1) := by
  simp only [image, List.append_assoc]
  rw [← List.append_assoc, ← List.append_assoc, ← List.append_assoc, ← List.append_assoc]
  exact field_at (by simp [storeLong, MAXLEN]) (length_strncpy _ _)

end Fields

def SIZEOF_FILEDATA : Nat := 12 + TRANSMITSIZE

/-- The `fileData_t` image `sendFileData` hands over. -/
def fileDataImage (host : Host) (readByte : Nat) (sum : BitVec 32) (context : List Byte) :
    List Byte :=
  storeInt host (htonl host ING) ++ storeInt host (htonl host (BitVec.ofNat 32 readByte))
    ++ storeInt host (htonl host sum) ++ context

theorem length_fileDataImage (host : Host) (n : Nat) (sum : BitVec 32) {context : List Byte}
    (h : context.length = TRANSMITSIZE) :
    (fileDataImage host n sum context).length = SIZEOF_FILEDATA := by
  simp only [fileDataImage, List.length_append, length_storeInt, h, SIZEOF_FILEDATA]

end BeEasy.FileTransmit
