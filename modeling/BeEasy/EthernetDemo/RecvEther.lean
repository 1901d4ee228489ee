import BeEasy.EthernetDemo.SendEther
import BeEasy.CVerif.EventLoop
import Mathlib.Data.List.Induction

/-!
# EthernetDemo — RecvEther

The loop of `ethernetDemo/recvEther.c`, which prints `frame.data` as a C
string. Its one `frame` is kept from one `recvfrom` to the next, and a
message brings no terminator with it: what ends the string is whatever byte
is left behind the message, by the padding of the link, by an earlier frame,
or from before the first one (`Terminated`).
-/

namespace BeEasy.EthernetDemo

open CVerif
open FileTransmit (EthernetFrame Mac Packet header ETHERNET_HEADER_SIZE MAX_ETHERNET_DATA_SIZE
  length_header)

/-- What `printf("%s \n", ..)` makes of a string. -/
def line (text : List Byte) : List Byte := text ++ [0x20, 0x0a]

structure RecvState where
  frame : EthernetFrame
  /-- What was printed, call by call. -/
  printed : List (List Byte)

/-- One turn of the loop; a `recvfrom` that fails leaves the frame as it is,
and the loop goes on with it. -/
def recvTurn (host : Host) (s : RecvState) (received : Option Packet) : Except Fault RecvState :=
  let frame := match received with
    | some pkt => s.frame.fill pkt
    | none => s.frame
  if ntohs host (frame.type host) = TYPE then do
    let text ← readString frame.data
    return ⟨frame, s.printed ++ [line text]⟩
  else return ⟨frame, s.printed⟩

/-- What the loop has printed after these turns. -/
def recvEther (host : Host) (frame : EthernetFrame) (received : List (Option Packet)) :
    Except Fault (List (List Byte)) :=
  (received.foldlM (recvTurn host) ⟨frame, []⟩).map RecvState.printed

/-! ## The link -/

structure Message where
  bytes : List Byte
  ne_nil : bytes ≠ []
  noNul : (0 : Byte) ∉ bytes
  short : bytes.length < MAX_ETHERNET_DATA_SIZE

/-- A message that is sent and delivered, and whether the link pads it. -/
structure Delivery where
  message : Message
  padded : Bool

/-- A link may pad a payload with zeros to 46 bytes. -/
def link (padded : Bool) (pkt : Packet) : Packet :=
  if padded then pkt ++ List.replicate (ETHERNET_HEADER_SIZE + 46 - pkt.length) 0 else pkt

def Delivery.packet (sender : Host) (toAddr localMac : Mac) (d : Delivery) : Option Packet :=
  match sendEtherData sender toAddr localMac TYPE d.message.bytes true with
  | .ok (_, some pkt) => some (link d.padded pkt)
  | _ => none

def Delivery.payload (d : Delivery) : List Byte :=
  d.message.bytes ++ if d.padded then List.replicate (46 - d.message.bytes.length) 0 else []

/-- The delivery writes the byte at index `n` of `frame.data`. -/
def Delivery.reaches (n : Nat) (d : Delivery) : Bool := n < d.payload.length

/-- The byte at index `n` of `frame.data` is a NUL: the latest of the
deliveries that reach it put padding there or, where none does, it was one
from the start. -/
def Terminated (initial : List Byte) (deliveries : List Delivery) (n : Nat) : Prop :=
  match deliveries.reverse.find? (Delivery.reaches n) with
  | some d => d.message.bytes.length ≤ n
  | none => initial[n]? = some 0

variable {sender host : Host} {toAddr localMac : Mac} {frame : EthernetFrame} {d : Delivery}
  {ds : List Delivery} {n : Nat}

theorem packet_eq :
    d.packet sender toAddr localMac = some (header sender toAddr localMac TYPE ++ d.payload) := by
  have hshort : d.message.bytes.length < 1500 := d.message.short
  have hsent := sendEtherData_ok sender toAddr localMac TYPE
    (show d.message.bytes.length < 2 ^ 31 by omega) true
  rw [List.take_of_length_le (Nat.le_of_lt d.message.short), if_pos rfl] at hsent
  unfold Delivery.packet
  rw [hsent]
  show some (link d.padded _) = _
  unfold link Delivery.payload
  cases d.padded with
  | false => simp
  | true =>
      have hpad : ETHERNET_HEADER_SIZE + 46
          - (header sender toAddr localMac TYPE ++ d.message.bytes).length
            = 46 - d.message.bytes.length := by
        rw [List.length_append, length_header]
        omega
      rw [if_pos rfl, if_pos rfl, hpad, List.append_assoc]

theorem length_payload_le : d.payload.length ≤ MAX_ETHERNET_DATA_SIZE := by
  have hshort : d.message.bytes.length < 1500 := d.message.short
  show d.payload.length ≤ 1500
  unfold Delivery.payload
  cases d.padded with
  | false =>
      rw [if_neg Bool.false_ne_true, List.append_nil]
      omega
  | true =>
      rw [if_pos rfl, List.length_append, List.length_replicate]
      omega

/-- Behind the message a payload has nothing but NULs. -/
theorem payload_eq_zero_iff (h : n < d.payload.length) :
    d.payload[n]? = some 0 ↔ d.message.bytes.length ≤ n := by
  by_cases hn : n < d.message.bytes.length
  · refine iff_of_false ?_ (Nat.not_le_of_lt hn)
    intro hzero
    rw [Delivery.payload, List.getElem?_append_left hn] at hzero
    exact d.message.noNul (List.mem_of_getElem? hzero)
  · refine iff_of_true ?_ (Nat.le_of_not_lt hn)
    rw [Delivery.payload, List.length_append] at h
    rw [Delivery.payload, List.getElem?_append_right (Nat.le_of_not_lt hn)]
    cases hpadded : d.padded with
    | false =>
        rw [hpadded, if_neg Bool.false_ne_true, List.length_nil] at h
        omega
    | true =>
        rw [hpadded, if_pos rfl, List.length_replicate] at h
        rw [if_pos rfl, List.getElem?_replicate, if_pos (by omega)]

/-! ## What the frame holds -/

/-- The frame after these deliveries. -/
def frameAfter (sender : Host) (toAddr localMac : Mac) (frame : EthernetFrame)
    (ds : List Delivery) : EthernetFrame :=
  ds.foldl (fun f d => f.fill (header sender toAddr localMac TYPE ++ d.payload)) frame

theorem frameAfter_concat :
    frameAfter sender toAddr localMac frame (ds ++ [d])
      = (frameAfter sender toAddr localMac frame ds).fill
          (header sender toAddr localMac TYPE ++ d.payload) := by
  rw [frameAfter, List.foldl_append]
  rfl

theorem data_frameAfter_concat :
    (frameAfter sender toAddr localMac frame (ds ++ [d])).data
      = d.payload ++ (frameAfter sender toAddr localMac frame ds).data.drop d.payload.length := by
  rw [frameAfter_concat, EthernetFrame.data_fill _ (length_header _ _ _ _) length_payload_le,
    EthernetFrame.data, List.drop_drop]

/-- **Which delivery a byte of the frame comes from.** -/
theorem data_frameAfter (n : Nat) :
    (frameAfter sender toAddr localMac frame ds).data[n]?
      = match ds.reverse.find? (Delivery.reaches n) with
        | some d => d.payload[n]?
        | none => frame.data[n]? := by
  induction ds using List.reverseRecOn with
  | nil => rfl
  | append_singleton ds d ih =>
      rw [data_frameAfter_concat, List.reverse_concat]
      by_cases hlt : n < d.payload.length
      · have hreaches : d.reaches n = true := decide_eq_true hlt
        rw [List.getElem?_append_left hlt, List.find?_cons_of_pos hreaches]
      · have hreaches : ¬ d.reaches n = true := fun h => hlt (of_decide_eq_true h)
        rw [List.getElem?_append_right (Nat.le_of_not_lt hlt), List.getElem?_drop,
          Nat.add_sub_cancel' (Nat.le_of_not_lt hlt), ih, List.find?_cons_of_neg hreaches]

theorem terminated_iff (sender : Host) (toAddr localMac : Mac) :
    (frameAfter sender toAddr localMac frame ds).data[n]? = some 0
      ↔ Terminated frame.data ds n := by
  rw [data_frameAfter, Terminated]
  cases hlatest : ds.reverse.find? (Delivery.reaches n) with
  | none => exact Iff.rfl
  | some d =>
      have hreaches : d.reaches n = true := List.find?_some hlatest
      exact payload_eq_zero_iff (of_decide_eq_true hreaches)

/-! ## What is printed -/

/-- A frame that is delivered has the type the loop prints. -/
theorem recvTurn_delivered {s : RecvState}
    (hframe : s.frame = frameAfter sender toAddr localMac frame ds) :
    recvTurn host s (d.packet sender toAddr localMac)
      = (readString (frameAfter sender toAddr localMac frame (ds ++ [d])).data).map fun text =>
          ⟨frameAfter sender toAddr localMac frame (ds ++ [d]), s.printed ++ [line text]⟩ := by
  rw [packet_eq, frameAfter_concat, ← hframe]
  unfold recvTurn
  rw [if_pos (EthernetFrame.type_fill sender host s.frame toAddr localMac TYPE d.payload)]
  cases readString (s.frame.fill (header sender toAddr localMac TYPE ++ d.payload)).data with
  | error fault => rfl
  | ok text => rfl

/-- The turns of a list of deliveries. -/
def recvRun (sender host : Host) (toAddr localMac : Mac) (frame : EthernetFrame)
    (ds : List Delivery) : Except Fault RecvState :=
  (ds.map (Delivery.packet sender toAddr localMac)).foldlM (recvTurn host) ⟨frame, []⟩

theorem recvRun_concat :
    recvRun sender host toAddr localMac frame (ds ++ [d])
      = (recvRun sender host toAddr localMac frame ds).bind fun s =>
          recvTurn host s (d.packet sender toAddr localMac) := by
  rw [recvRun, List.map_append, List.foldlM_append]
  show (recvRun sender host toAddr localMac frame ds).bind _ = _
  cases recvRun sender host toAddr localMac frame ds with
  | error fault => rfl
  | ok s =>
      show (recvTurn host s (d.packet sender toAddr localMac)).bind _
        = recvTurn host s (d.packet sender toAddr localMac)
      cases recvTurn host s (d.packet sender toAddr localMac) <;> rfl

/-- The frame is what the deliveries left in it, whatever was printed. -/
theorem frame_recvRun {s : RecvState}
    (hrun : recvRun sender host toAddr localMac frame ds = .ok s) :
    s.frame = frameAfter sender toAddr localMac frame ds := by
  induction ds using List.reverseRecOn generalizing s with
  | nil =>
      cases hrun
      rfl
  | append_singleton ds d ih =>
      rw [recvRun_concat] at hrun
      cases hprev : recvRun sender host toAddr localMac frame ds with
      | error fault =>
          rw [hprev] at hrun
          cases hrun
      | ok u =>
          rw [hprev] at hrun
          change recvTurn host u (d.packet sender toAddr localMac) = .ok s at hrun
          rw [recvTurn_delivered (ih hprev)] at hrun
          cases htext : readString (frameAfter sender toAddr localMac frame (ds ++ [d])).data with
          | error fault =>
              rw [htext] at hrun
              cases hrun
          | ok text =>
              rw [htext] at hrun
              cases hrun
              rfl

/-- The string in the frame is the message exactly when it ends behind it. -/
theorem readString_delivered (sender : Host) (toAddr localMac : Mac) :
    readString (frameAfter sender toAddr localMac frame (ds ++ [d])).data = .ok d.message.bytes
      ↔ Terminated frame.data (ds ++ [d]) d.message.bytes.length := by
  rw [← terminated_iff sender toAddr localMac, data_frameAfter_concat, Delivery.payload,
    List.append_assoc, readString_append_iff d.message.noNul, List.head?_eq_getElem?,
    List.getElem?_append_right (Nat.le_refl _), Nat.sub_self]

/-- One more delivery is printed rightly exactly when the string in the frame
ends behind its message. -/
theorem recvEther_concat_iff {texts : List (List Byte)} :
    (recvRun sender host toAddr localMac frame (ds ++ [d])).map RecvState.printed
        = .ok (texts ++ [line d.message.bytes])
      ↔ (recvRun sender host toAddr localMac frame ds).map RecvState.printed = .ok texts
        ∧ Terminated frame.data (ds ++ [d]) d.message.bytes.length := by
  rw [recvRun_concat]
  cases hprev : recvRun sender host toAddr localMac frame ds with
  | error fault =>
      constructor
      · intro h
        cases h
      · rintro ⟨h, -⟩
        cases h
  | ok u =>
      show (recvTurn host u (d.packet sender toAddr localMac)).map RecvState.printed = _
        ↔ Except.ok u.printed = Except.ok texts ∧ _
      rw [recvTurn_delivered (frame_recvRun hprev), Except.ok.injEq,
        ← readString_delivered sender toAddr localMac]
      cases readString (frameAfter sender toAddr localMac frame (ds ++ [d])).data with
      | error fault =>
          constructor
          · intro h
            cases h
          · rintro ⟨-, h⟩
            cases h
      | ok text =>
          show Except.ok (u.printed ++ [line text]) = _ ↔ _
          rw [Except.ok.injEq, Except.ok.injEq]
          constructor
          · intro h
            obtain ⟨htexts, hline⟩ := List.append_inj' h rfl
            exact ⟨htexts, List.append_cancel_right (List.singleton_inj.mp hline)⟩
          · rintro ⟨htexts, htext⟩
            rw [htexts, htext]

/-- **What `recvEther` prints of a sequence of messages** is the messages, one
for each frame, exactly when behind each message, as it lies in the frame, an
earlier frame or the padding of its own left a NUL. -/
theorem prints_messages_iff (sender host : Host) (toAddr localMac : Mac) (frame : EthernetFrame)
    (ds : List Delivery) :
    recvEther host frame (ds.map (Delivery.packet sender toAddr localMac))
        = .ok (ds.map fun d => line d.message.bytes)
      ↔ EachEntry
          (fun before d => Terminated frame.data (before ++ [d]) d.message.bytes.length) ds := by
  show (recvRun sender host toAddr localMac frame ds).map RecvState.printed = _ ↔ _
  induction ds using List.reverseRecOn with
  | nil => exact iff_of_true rfl eachEntry_nil
  | append_singleton ds d ih =>
      rw [List.map_append, List.map_singleton, recvEther_concat_iff, ih, eachEntry_concat]

/-- A frame of zeros, and two messages too long to be padded. -/
def blank : EthernetFrame := ⟨List.replicate 1514 0, by decide +kernel⟩

def someMac : Mac := ⟨[2, 0, 0, 0, 0, 1], rfl⟩

def longer : Message :=
  ⟨List.replicate 48 0x41, by decide, by decide +kernel, by decide +kernel⟩

def shorter : Message :=
  ⟨List.replicate 47 0x42, by decide, by decide +kernel, by decide +kernel⟩

/-- The last byte of the longer message is printed behind the shorter one. -/
theorem stale_byte_printed :
    recvEther .little blank
        ([⟨longer, true⟩, ⟨shorter, true⟩].map (Delivery.packet .little someMac someMac))
      = .ok [line longer.bytes, line (shorter.bytes ++ [0x41])]
      ∧ line (shorter.bytes ++ [0x41]) ≠ line shorter.bytes := by
  constructor
  · decide +kernel
  · decide +kernel

end BeEasy.EthernetDemo
