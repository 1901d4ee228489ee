import BeEasy.FileTransmit.Peers

/-!
# FileTransmit — File size

`htonll` and `ntohll` over all 64-bit values and both byte orders: what one of
them puts in memory is network order, what the other makes of it is the value
again, and each undoes the other. So the size that `sendReq` puts into START
is the one that `createFile` takes out of it, on whatever two hosts.
-/

namespace BeEasy.FileTransmit

open CVerif

section Inverse

variable (host : Host) (v : BitVec 64)

theorem loadLong_storeLong : loadLong host (storeLong host v) = v := by
  have hwhole : host.load (host.store 8 v.toNat) = v.toNat % 256 ^ 8 := by
    cases host with
    | little => exact ofLeBytes_leBytes 8 v.toNat
    | big => exact ofBeBytes_beBytes 8 v.toNat
  have hlt := v.isLt
  rw [loadLong, storeLong, hwhole, Nat.mod_eq_of_lt (by omega), BitVec.ofNat_toNat,
    BitVec.setWidth_eq]

/-- The two functions are the same. -/
theorem htonll_eq_ntohll : htonll host v = ntohll host v := rfl

theorem ntohll_htonll : ntohll host (htonll host v) = v := by
  rw [← loadLong_storeLong host (htonll host v), storeLong_htonll, ntohll_loadLong_beBytes]

theorem htonll_ntohll : htonll host (ntohll host v) = v := by
  rw [htonll_eq_ntohll, ← htonll_eq_ntohll host v, ntohll_htonll]

end Inverse

/-! ## START -/

/-- What `sendReq` hands to the network is the struct with the globals. -/
theorem sendReq_carries {host : Host} {s : SendState} {ev : SendEvent} {pkt : Packet} {ret : Int}
    (h : sendReq host s ev = .ok (ret, some pkt)) :
    Carries host pkt (.start (fileAttr s ev)) := by
  rw [sendReq_eq] at h
  cases hsend : ev.sendto with
  | false =>
      rw [hsend] at h
      cases h
  | true =>
      rw [hsend] at h
      cases h
      exact ⟨trivial, _, _, rfl⟩

/-- Whether or not the file can be opened, the pass leaves the sender's size. -/
theorem fileSize_of_start {sender host : Host} {r t : RecvState} {rev : RecvEvent} {pkt : Packet}
    {attr : FileAttr} (hcarry : Carries sender pkt (.start attr)) (hrecv : rev.recvfrom = some pkt)
    (ht : (fileRecvPass host r rev).state? = some t) : t.fileSize = attr.fileSize := by
  obtain ⟨frame, rest, hr, hdata, hst⟩ := received_start host r hcarry hrecv
  have hsize (fopen : Bool) :
      (createFile host { r with frame } fopen).state.fileSize = attr.fileSize := by
    rw [createFile_fileSize, hdata, FileAttr.field_fileSize, ntohll_loadLong_beBytes]
  cases hopen : rev.fopen with
  | false =>
      rw [fileRecvPass_notCreated hr hst hopen] at ht
      cases ht
      exact hsize false
  | true =>
      rw [fileRecvPass_created hr hst hopen] at ht
      cases ht
      exact hsize true

/-! ## All of it -/

/-- A value between hosts: its bytes in memory, what is read from them, the
conversions one after the other, and the size of a file in START. -/
structure Crosses (v : BitVec 64) : Prop where
  stored : ∀ host, storeLong host (htonll host v) = beBytes 8 v.toNat
  loaded : ∀ host, ntohll host (loadLong host (beBytes 8 v.toNat)) = v
  undone : ∀ host, ntohll host (htonll host v) = v
  redone : ∀ host, htonll host (ntohll host v) = v
  announced : ∀ sender host s ev ret pkt r rev t, s.fileSize = v →
    sendReq sender s ev = .ok (ret, some pkt) → rev.recvfrom = some pkt →
    (fileRecvPass host r rev).state? = some t → t.fileSize = v

/-- **Every value crosses**, between hosts of any two byte orders. -/
theorem crosses (v : BitVec 64) : Crosses v where
  stored host := storeLong_htonll host v
  loaded host := ntohll_loadLong_beBytes host v
  undone host := ntohll_htonll host v
  redone host := htonll_ntohll host v
  announced sender host s ev ret pkt r rev t hsize hsend hrecv ht := by
    rw [← hsize]
    exact fileSize_of_start (sendReq_carries hsend) hrecv ht

end BeEasy.FileTransmit
