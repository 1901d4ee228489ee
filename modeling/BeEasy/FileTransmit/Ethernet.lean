import BeEasy.CVerif.Memory

/-!
# FileTransmit — Ethernet

The frame buffer of `fileTransmit/ethernet.h` and the raw-socket calls on
it. `EthernetFrame` is the 1514 bytes of the C struct and its fields are
slices of them, because `recvfrom` writes bytes, not fields: a short
datagram overwrites the front of the buffer and leaves what a previous one
put behind it (`EthernetFrame.fill`).

What goes over the wire is a `Packet`, the bytes handed to `sendto`.
-/

namespace BeEasy.FileTransmit

open CVerif

def MAX_ETHERNET_FRAME_SIZE : Nat := 1514
def MAX_ETHERNET_DATA_SIZE : Nat := 1500
def ETHERNET_HEADER_SIZE : Nat := 14
def MAC_BYTES : Nat := 6

abbrev Packet := List Byte

structure Mac where
  bytes : List Byte
  length_bytes : bytes.length = MAC_BYTES

/-- `ethernetFrame_t`: `dst_addr`, `src_addr`, `type` and `data`, 1514 bytes
without padding. -/
structure EthernetFrame where
  bytes : List Byte
  length_bytes : bytes.length = MAX_ETHERNET_FRAME_SIZE

namespace EthernetFrame

def dstAddr (f : EthernetFrame) : Mac where
  bytes := f.bytes.take MAC_BYTES
  length_bytes := by
    have := f.length_bytes
    simp only [List.length_take, MAC_BYTES, MAX_ETHERNET_FRAME_SIZE] at *
    omega

def srcAddr (f : EthernetFrame) : Mac where
  bytes := (f.bytes.drop MAC_BYTES).take MAC_BYTES
  length_bytes := by
    have := f.length_bytes
    simp only [List.length_take, List.length_drop, MAC_BYTES, MAX_ETHERNET_FRAME_SIZE] at *
    omega

/-- The `type` field as the host reads it; its bytes are in network order. -/
def type (host : Host) (f : EthernetFrame) : BitVec 16 :=
  loadShort host ((f.bytes.drop 12).take 2)

def data (f : EthernetFrame) : List Byte := f.bytes.drop ETHERNET_HEADER_SIZE

@[simp] theorem length_data (f : EthernetFrame) : f.data.length = MAX_ETHERNET_DATA_SIZE := by
  rw [data, List.length_drop, f.length_bytes]
  rfl

/-- What `recvfrom(fd, frame, sizeof(ethernetFrame_t), ..)` leaves in the
buffer: the datagram, cut at the buffer's size, and behind it the bytes
that were there before. -/
def fill (f : EthernetFrame) (pkt : Packet) : EthernetFrame where
  bytes := pkt.take MAX_ETHERNET_FRAME_SIZE ++ f.bytes.drop pkt.length
  length_bytes := by
    rw [List.length_append, List.length_take, List.length_drop, f.length_bytes]
    omega

theorem bytes_fill (f : EthernetFrame) (pkt : Packet) :
    (f.fill pkt).bytes = pkt.take MAX_ETHERNET_FRAME_SIZE ++ f.bytes.drop pkt.length := rfl

end EthernetFrame

/-! ## Sending -/

/-- The 14 header bytes `sendEtherData` writes. -/
def header (host : Host) (toAddr fromAddr : Mac) (type : BitVec 16) : List Byte :=
  toAddr.bytes ++ fromAddr.bytes ++ storeShort host (htons host type)

@[simp] theorem length_header (host : Host) (toAddr fromAddr : Mac) (type : BitVec 16) :
    (header host toAddr fromAddr type).length = ETHERNET_HEADER_SIZE := by
  simp [header, toAddr.length_bytes, fromAddr.length_bytes, MAC_BYTES, ETHERNET_HEADER_SIZE]

/-- `sendEtherData`: the result and the packet handed to `sendto`, whose
success is the argument `sendto`. The copy into `frame.data` comes before
the clamp on `data_size`, and `memcpy` takes that `int` as a `size_t`. The
part of the frame the copy leaves uninitialised is not transmitted. -/
def sendEtherData (host : Host) (toAddr fromAddr : Mac) (type : BitVec 16) (data : List Byte)
    (dataSize : BitVec 32) (sendto : Bool) : Except Fault (Int × Option Packet) := do
  let bytes ← readBytes data 0 (dataSize.signExtend 64).toNat
  let frameData ← writeBytes (List.replicate MAX_ETHERNET_DATA_SIZE 0) 0 bytes
  let dataSize := if dataSize.toInt > MAX_ETHERNET_DATA_SIZE then MAX_ETHERNET_DATA_SIZE
    else dataSize.toNat
  let frameSize := ETHERNET_HEADER_SIZE + dataSize
  let frame := header host toAddr fromAddr type ++ frameData
  return if sendto then (0, some (frame.take frameSize)) else (-1, none)

/-- The part of the frame that is transmitted ends with the data. -/
theorem take_frame (host : Host) (toAddr fromAddr : Mac) (type : BitVec 16)
    (data rest : List Byte) :
    (header host toAddr fromAddr type ++ (data ++ rest)).take (ETHERNET_HEADER_SIZE + data.length)
      = header host toAddr fromAddr type ++ data := by
  rw [← List.append_assoc, List.take_left']
  rw [List.length_append, length_header]

/-- A part of the data that fits the frame goes out right behind the header. -/
theorem sendEtherData_take (host : Host) (toAddr fromAddr : Mac) (type : BitVec 16)
    {data : List Byte} {n : Nat} (hlen : n ≤ data.length) (hn : n ≤ MAX_ETHERNET_DATA_SIZE)
    (sendto : Bool) :
    sendEtherData host toAddr fromAddr type data (BitVec.ofNat 32 n) sendto
      = .ok (if sendto then (0, some (header host toAddr fromAddr type ++ data.take n))
        else (-1, none)) := by
  have hle : n ≤ 1500 := hn
  have hnat : (BitVec.ofNat 32 n).toNat = n := by
    simp only [BitVec.toNat_ofNat]
    omega
  have hclamp : ¬ ((n : Int) > (MAX_ETHERNET_DATA_SIZE : Nat)) := by
    simp only [MAX_ETHERNET_DATA_SIZE]
    omega
  have htake : (data.take n).length = n := List.length_take_of_le hlen
  have hframe := take_frame host toAddr fromAddr type (data.take n)
    (List.replicate (MAX_ETHERNET_DATA_SIZE - (data.take n).length) 0)
  simp only [sendEtherData, toNat_signExtend_length (show n < 2 ^ 31 by omega)]
  rw [readBytes_ok (by omega), List.drop_zero]
  simp only [bind, Except.bind]
  rw [writeBytes_zeros (by rwa [htake])]
  simp only [toInt_length (show n < 2 ^ 31 by omega), hnat, if_neg hclamp]
  rw [htake] at hframe ⊢
  rw [hframe]
  rfl

/-- Data that fits the frame goes out whole, right behind the header. -/
theorem sendEtherData_ok (host : Host) (toAddr fromAddr : Mac) (type : BitVec 16) {data : List Byte}
    {n : Nat} (hlen : data.length = n) (hn : n ≤ MAX_ETHERNET_DATA_SIZE) (sendto : Bool) :
    sendEtherData host toAddr fromAddr type data (BitVec.ofNat 32 n) sendto
      = .ok (if sendto then (0, some (header host toAddr fromAddr type ++ data)) else (-1, none)) := by
  rw [sendEtherData_take host toAddr fromAddr type (Nat.le_of_eq hlen.symm) hn, ← hlen,
    List.take_length]

/-- More bytes than the data has, or than the frame has room for, do not get
to the clamp. -/
theorem sendEtherData_fault (host : Host) (toAddr fromAddr : Mac) (type : BitVec 16)
    {data : List Byte} {dataSize : BitVec 32}
    (h : data.length < (dataSize.signExtend 64).toNat ∨
      MAX_ETHERNET_DATA_SIZE < (dataSize.signExtend 64).toNat) (sendto : Bool) :
    sendEtherData host toAddr fromAddr type data dataSize sendto = .error .outOfBounds := by
  unfold sendEtherData
  rcases Nat.lt_or_ge data.length (dataSize.signExtend 64).toNat with hlen | hlen
  · rw [readBytes_outOfBounds (by omega)]
    rfl
  · rw [readBytes_ok (by omega)]
    simp only [bind, Except.bind]
    rw [writeBytes, if_neg]
    rw [List.drop_zero, List.length_take, List.length_replicate]
    omega

/-! ## Receiving what was sent -/

/-- A received packet that fits the buffer shows its payload at the start
of `data`. -/
theorem EthernetFrame.data_fill (f : EthernetFrame) {hdr payload : List Byte}
    (hh : hdr.length = ETHERNET_HEADER_SIZE) (hp : payload.length ≤ MAX_ETHERNET_DATA_SIZE) :
    (f.fill (hdr ++ payload)).data
      = payload ++ f.bytes.drop (ETHERNET_HEADER_SIZE + payload.length) := by
  have hfit : (hdr ++ payload).length ≤ MAX_ETHERNET_FRAME_SIZE := by
    simp only [List.length_append, hh, ETHERNET_HEADER_SIZE, MAX_ETHERNET_FRAME_SIZE,
      MAX_ETHERNET_DATA_SIZE] at *
    omega
  rw [data, bytes_fill, List.take_of_length_le hfit, List.length_append, hh, List.append_assoc,
    List.drop_left' hh]

/-- Its type field reads back as it was sent, whatever the two hosts. -/
theorem EthernetFrame.type_fill (sender host : Host) (f : EthernetFrame) (toAddr fromAddr : Mac)
    (type : BitVec 16) (payload : List Byte) :
    ntohs host ((f.fill (header sender toAddr fromAddr type ++ payload)).type host) = type := by
  have haddr : (toAddr.bytes ++ fromAddr.bytes).length = 12 := by
    simp [toAddr.length_bytes, fromAddr.length_bytes, MAC_BYTES]
  have hall : (toAddr.bytes ++ fromAddr.bytes).take MAX_ETHERNET_FRAME_SIZE
      = toAddr.bytes ++ fromAddr.bytes := List.take_of_length_le (by rw [haddr]; decide)
  have htype : ((f.fill (header sender toAddr fromAddr type ++ payload)).bytes.drop 12).take 2
      = beBytes 2 type.toNat := by
    rw [bytes_fill, header, storeShort_htons, List.append_assoc (toAddr.bytes ++ fromAddr.bytes),
      List.take_append, haddr, hall, List.append_assoc, List.drop_left' haddr]
    simp [List.take_append, MAX_ETHERNET_FRAME_SIZE, List.take_of_length_le]
  rw [EthernetFrame.type, htype, ntohs_loadShort_beBytes]

end BeEasy.FileTransmit
