import BeEasy.FileTransmit.Ethernet

/-!
# EthernetDemo — SendEther

`sendEtherData` of `ethernetDemo/sendEther.c`. Frame and header are those of
`fileTransmit/ethernet.h`; here the data is a C string, its length is taken
with `strlen`, and it is cut at the size of the frame before the copy.
Neither its length nor a terminator goes out.

`fileTransmit` has the function once more, with the length as an argument and
the copy before the cut: the two send the same frame only as long as nothing
has to be cut.
-/

namespace BeEasy.EthernetDemo

open CVerif
open FileTransmit (EthernetFrame Mac Packet header ETHERNET_HEADER_SIZE MAX_ETHERNET_DATA_SIZE
  MAX_ETHERNET_FRAME_SIZE)

def TYPE : BitVec 16 := 0x1024

/-- What is returned, and the packet handed to `sendto`, whose success is an
argument. The part of `frame.data` the copy leaves uninitialised is not
transmitted. -/
def sendEtherData (host : Host) (toAddr localMac : Mac) (type : BitVec 16) (data : List Byte)
    (sendto : Bool) : Except Fault (Int × Option Packet) := do
  let strlen := BitVec.ofNat 32 data.length
  let dataSize := if strlen.toInt > MAX_ETHERNET_DATA_SIZE then
    BitVec.ofNat 32 MAX_ETHERNET_DATA_SIZE else strlen
  let bytes ← readBytes data 0 (dataSize.signExtend 64).toNat
  let frameData ← writeBytes (List.replicate MAX_ETHERNET_DATA_SIZE 0) 0 bytes
  let frameSize := ETHERNET_HEADER_SIZE + dataSize.toNat
  let frame := header host toAddr localMac type ++ frameData
  return if sendto then (0, some (frame.take frameSize)) else (-1, none)

/-- A string that an `int` counts goes out right behind the header, cut at
the size of the frame. -/
theorem sendEtherData_ok (host : Host) (toAddr localMac : Mac) (type : BitVec 16)
    {data : List Byte} (hlen : data.length < 2 ^ 31) (sendto : Bool) :
    sendEtherData host toAddr localMac type data sendto
      = .ok (if sendto then
          (0, some (header host toAddr localMac type ++ data.take MAX_ETHERNET_DATA_SIZE))
        else (-1, none)) := by
  have hmin : min data.length MAX_ETHERNET_DATA_SIZE ≤ 1500 := Nat.min_le_right _ _
  have hsize : (if (data.length : Int) > (MAX_ETHERNET_DATA_SIZE : Nat) then
      BitVec.ofNat 32 MAX_ETHERNET_DATA_SIZE else BitVec.ofNat 32 data.length)
        = BitVec.ofNat 32 (min data.length MAX_ETHERNET_DATA_SIZE) := by
    by_cases hlong : (data.length : Int) > (MAX_ETHERNET_DATA_SIZE : Nat)
    · rw [if_pos hlong, Nat.min_eq_right (by omega)]
    · rw [if_neg hlong, Nat.min_eq_left (by omega)]
  have hnat : (BitVec.ofNat 32 (min data.length MAX_ETHERNET_DATA_SIZE)).toNat
      = (data.take MAX_ETHERNET_DATA_SIZE).length := by
    rw [BitVec.toNat_ofNat, List.length_take, Nat.min_comm, Nat.mod_eq_of_lt (by omega)]
  have hcopied : data.take (min data.length MAX_ETHERNET_DATA_SIZE)
      = data.take MAX_ETHERNET_DATA_SIZE :=
    List.take_eq_take_iff.mpr (by omega)
  simp only [sendEtherData, toInt_length hlen, hsize, toNat_signExtend_length
    (show min data.length MAX_ETHERNET_DATA_SIZE < 2 ^ 31 by omega)]
  rw [readBytes_ok (by omega), List.drop_zero, hcopied]
  simp only [bind, Except.bind]
  rw [writeBytes_zeros (List.length_take_le _ _)]
  simp only [hnat, FileTransmit.take_frame]
  rfl

/-! ## The two versions -/

/-- `sendEtherData` of `fileTransmit` sends the first
`min(data_size, MAX_ETHERNET_DATA_SIZE)` bytes of the data behind the header,
and it is the frame of the version here if they are a string. -/
structure SendsPayload (host : Host) (toAddr fromAddr : Mac) (type : BitVec 16)
    (data : List Byte) (dataSize : BitVec 32) : Prop where
  payload : ∃ size : Nat, (size : Int) = min dataSize.toInt MAX_ETHERNET_DATA_SIZE ∧
    size ≤ data.length ∧ ∀ sendto,
      FileTransmit.sendEtherData host toAddr fromAddr type data dataSize sendto
        = .ok (if sendto then (0, some (header host toAddr fromAddr type ++ data.take size))
          else (-1, none))
  same : ∀ string, (string.length : Int) = dataSize.toInt → (0 : Byte) ∉ string →
    string <+: data → ∀ sendto,
      FileTransmit.sendEtherData host toAddr fromAddr type data dataSize sendto
        = sendEtherData host toAddr fromAddr type string sendto

/-- An `int` that is not negative is that many bytes to `memcpy`, and any other
is more than there are. -/
theorem size_of_int (n : BitVec 32) :
    (n.signExtend 64).toNat = n.toInt.toNat ∧ n = BitVec.ofNat 32 n.toInt.toNat ∨
      n.toInt < 0 ∧ 2 ^ 63 ≤ (n.signExtend 64).toNat := by
  have hsame : (n.signExtend 64).toInt = n.toInt := BitVec.toInt_signExtend_of_le (by decide)
  rw [BitVec.toInt_eq_toNat_cond] at hsame
  have hlt := (n.signExtend 64).isLt
  rcases Int.lt_or_le n.toInt 0 with hneg | hpos
  · refine .inr ⟨hneg, ?_⟩
    split at hsame <;> omega
  · refine .inl ⟨by split at hsame <;> omega, ?_⟩
    have hnat : n.toInt = n.toNat := by
      have hn := n.isLt
      rw [BitVec.toInt_eq_toNat_cond] at hpos ⊢
      split at hpos <;> omega
    rw [hnat, Int.toNat_natCast, BitVec.ofNat_toNat, BitVec.setWidth_eq]

/-- **The payload is sent exactly when the data has all its bytes and nothing
has to be cut**: a size that is not negative, in the data and in the frame. -/
theorem sendsPayload_iff (host : Host) (toAddr fromAddr : Mac) (type : BitVec 16)
    (data : List Byte) (dataSize : BitVec 32) :
    SendsPayload host toAddr fromAddr type data dataSize ↔
      0 ≤ dataSize.toInt ∧ dataSize.toInt ≤ MAX_ETHERNET_DATA_SIZE ∧
        dataSize.toInt ≤ data.length := by
  constructor
  · intro h
    obtain ⟨size, hsize, -, hsent⟩ := h.payload
    by_contra hnot
    have hmax : MAX_ETHERNET_DATA_SIZE < 2 ^ 63 := by decide
    have hlong : data.length < (dataSize.signExtend 64).toNat ∨
        MAX_ETHERNET_DATA_SIZE < (dataSize.signExtend 64).toNat := by
      rcases size_of_int dataSize with ⟨hnat, -⟩ | ⟨-, hhuge⟩
      · omega
      · omega
    cases (FileTransmit.sendEtherData_fault host toAddr fromAddr type hlong true).symm.trans
      (hsent true)
  · intro ⟨hpos, hmax, hlen⟩
    obtain ⟨-, hofNat⟩ := (size_of_int dataSize).resolve_right fun h => by omega
    have hsend := FileTransmit.sendEtherData_take host toAddr fromAddr type
      (show dataSize.toInt.toNat ≤ data.length by omega)
      (show dataSize.toInt.toNat ≤ MAX_ETHERNET_DATA_SIZE by omega)
    rw [← hofNat] at hsend
    refine ⟨⟨dataSize.toInt.toNat, by omega, by omega, hsend⟩, ?_⟩
    intro string hstring _ hprefix sendto
    have hmax' : MAX_ETHERNET_DATA_SIZE < 2 ^ 31 := by decide
    have htake : string = data.take dataSize.toInt.toNat := by
      rw [show dataSize.toInt.toNat = string.length by omega]
      exact List.prefix_iff_eq_take.mp hprefix
    rw [hsend, sendEtherData_ok host toAddr fromAddr type (by omega),
      List.take_of_length_le (by omega : string.length ≤ MAX_ETHERNET_DATA_SIZE), ← htake]

/-- A byte more than the frame has room for is not cut off before it is copied. -/
theorem payload_too_long : ¬SendsPayload .little ⟨List.replicate 6 0, rfl⟩
    ⟨List.replicate 6 0, rfl⟩ TYPE (List.replicate 1501 65) 1501#32 := by
  intro h
  obtain ⟨size, -, -, hsent⟩ := h.payload
  have hlong : MAX_ETHERNET_DATA_SIZE < ((1501#32).signExtend 64).toNat := by decide
  cases (FileTransmit.sendEtherData_fault _ _ _ _ (.inr hlong) true).symm.trans (hsent true)

end BeEasy.EthernetDemo
