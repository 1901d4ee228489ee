import BeEasy.FileTransmit.Wire
import BeEasy.CVerif.EventLoop
import BeEasy.CVerif.Stdio

/-!
# FileTransmit — Sender

`sendReq`, `sendFileData` and `fileSend`. The sender stops in three places
to wait for an ack, so its run is cut there: a turn starts where the last
one stopped (`SendPc`), consumes the outcomes of the calls up to the next
stop (`SendEvent`), and goes on, or returns.

`SendPc` carries what is live at the stop: the open file, and the request
whose ack is awaited. `history` lists the requests with their replies and
`sent` the packets handed to the network; neither is in the program.
-/

namespace BeEasy.FileTransmit

open CVerif

/-- What the sender asks of the receiver. -/
inductive Request where
  | start (attr : FileAttr)
  | data (chunk : List Byte)
  | finish

/-- How a request ended. -/
inductive Reply where
  | notSent
  | notReceived
  | status (word : BitVec 32)

/-- Where `fileSend` stands between two turns. -/
inductive SendPc where
  | setup
  /-- `recvAck` for the START. -/
  | reqAck (attr : FileAttr) (fp : InStream)
  /-- The head of `while (!feof(fp))`. -/
  | loop (fp : InStream)
  /-- `recvAck` for a data frame. -/
  | dataAck (chunk : List Byte) (fp : InStream)
  /-- `recvAck` for the END. -/
  | endAck

structure SendState where
  pc : SendPc
  filename : List Byte
  filepath : List Byte
  fileSize : BitVec 64
  fileCount : BitVec 32
  count : BitVec 32
  toAddr : Mac
  fromAddr : Mac
  history : List (Request × Reply)
  sent : List Packet

/-- The outcomes of the calls in one turn: the two addresses, the opened
file's bytes and what `ftell` says of them, an `fread` error, whether
`sendto` succeeds, what `recvfrom` delivers; and the bytes that the structs
on the stack happen to hold. -/
structure SendEvent where
  getLocalMacAddr : Option Mac
  getMacFromArp : Bool
  macAton : Option Mac
  fopen : Option (List Byte)
  ftell : BitVec 64
  fread : Option Nat
  sendto : Bool
  recvfrom : Option Packet
  stack : EthernetFrame
  padding : BitVec 32
  dstpathLast : Byte
  dstfileNameLast : Byte

/-! ## Requests -/

/-- The `fileAttr_t` of `sendReq`. -/
def fileAttr (s : SendState) (ev : SendEvent) : FileAttr where
  fileSize := s.fileSize
  dstpath := s.filepath
  dstfileName := basename s.filename
  padding := ev.padding
  dstpathLast := ev.dstpathLast
  dstfileNameLast := ev.dstfileNameLast

def sendReq (host : Host) (s : SendState) (ev : SendEvent) :
    Except Fault (Int × Option Packet) :=
  sendEtherData host s.toAddr s.fromAddr FILETRANSMIT ((fileAttr s ev).image host)
    (BitVec.ofNat 32 SIZEOF_FILEATTR) ev.sendto

/-- The part of `sendFileData`'s loop body from the sum to the send, for the
`chunk` that `fread` left in `buf`. -/
def sendChunk (host : Host) (s : SendState) (chunk : List Byte) (sendto : Bool) :
    Except Fault (Int × Option Packet) := do
  let readByte := chunk.length
  let sum ← checksum chunk readByte
  let context ← writeBytes (List.replicate TRANSMITSIZE 0) 0 chunk
  sendEtherData host s.toAddr s.fromAddr FILETRANSMIT (fileDataImage host readByte sum context)
    (BitVec.ofNat 32 SIZEOF_FILEDATA) sendto

def sendEnd (host : Host) (s : SendState) (sendto : Bool) : Except Fault (Int × Option Packet) :=
  sendEtherData host s.toAddr s.fromAddr FILETRANSMIT (storeInt host (htonl host END)) 4 sendto

/-! ## The turns -/

/-- The request went out and the sender waits at `pc`, or it could not be
sent and `fileSend` returns `ret`. -/
def SendState.await (s : SendState) (request : Request) (pc : SendPc) :
    Int × Option Packet → Progress SendState Int Fault
  | (ret, pkt) =>
      if ret < 0 then .returned { s with history := s.history ++ [(request, .notSent)] } ret
      else .running { s with pc, sent := s.sent ++ pkt.toList }

/-- The two addresses, and `fileSize` and `fileCount` from what `ftell` said. -/
def SendState.opened (s : SendState) (toAddr fromAddr : Mac) (ev : SendEvent) : SendState :=
  { s with
    fromAddr, toAddr
    fileSize := ev.ftell
    fileCount := (ev.ftell / BitVec.ofNat 64 TRANSMITSIZE + 1#64).setWidth 32 }

/-- From the entry of `fileSend` to the first `recvAck`. -/
def sendSetup (host : Host) (s : SendState) (ev : SendEvent) :
    Except Fault (Progress SendState Int Fault) :=
  match ev.getLocalMacAddr, ev.getMacFromArp, ev.macAton, ev.fopen with
  | some fromAddr, true, some toAddr, some content => do
      let s := s.opened toAddr fromAddr ev
      let attr := fileAttr s ev
      return s.await (.start attr) (.reqAck attr (InStream.ofContent content))
        (← sendReq host s ev)
  | _, _, _, _ => return .returned s (-1)

/-- The head of the loop: the next chunk, or the END after the last one. -/
def sendNext (host : Host) (s : SendState) (fp : InStream) (ev : SendEvent) :
    Except Fault (Progress SendState Int Fault) := do
  if fp.eof then
    return s.await .finish .endAck (← sendEnd host s ev.sendto)
  let (chunk, fp) := fp.fread TRANSMITSIZE ev.fread
  return s.await (.data chunk) (.dataAck chunk fp) (← sendChunk host s chunk ev.sendto)

/-- What came back, for the history. -/
def replyTo (host : Host) (ev : SendEvent) : Reply :=
  let (frame, ret) := recvEtherFrame host ev.stack ev.recvfrom
  if ret < 0 then .notReceived else .status (frameStatus host frame)

/-- One turn of `fileSend`. `recvAck` returns the status word itself, and
`quit` returns whatever is in `ret`: the word for START and END, -1 for a
data frame. -/
def fileSendTurn (host : Host) (s : SendState) (ev : SendEvent) :
    Progress SendState Int Fault :=
  let ret := recvAck host ev.stack ev.recvfrom
  let reply := replyTo host ev
  let settle : Except Fault (Progress SendState Int Fault) → Progress SendState Int Fault
    | .ok p => p
    | .error f => .faulted f
  match s.pc with
  | .setup => settle (sendSetup host s ev)
  | .reqAck attr fp =>
      let s := { s with history := s.history ++ [(.start attr, reply)] }
      if ret ≠ SUCCESS.toInt then .returned s ret
      else .running { s with pc := .loop fp }
  | .loop fp => settle (sendNext host s fp ev)
  | .dataAck chunk fp =>
      let s := { s with history := s.history ++ [(.data chunk, reply)] }
      if ret ≠ SUCCESS.toInt then .returned s (-1)
      else .running { s with pc := .loop fp, count := s.count + 1 }
  | .endAck => .returned { s with history := s.history ++ [(.finish, reply)] } ret

/-- The state `fileSend` is called in, with nothing in the address arrays. -/
def SendState.init (filename filepath : List Byte) (toAddr fromAddr : Mac) : SendState where
  pc := .setup
  filename := filename
  filepath := filepath
  fileSize := 0
  fileCount := 0
  count := 0
  toAddr := toAddr
  fromAddr := fromAddr
  history := []
  sent := []

end BeEasy.FileTransmit
