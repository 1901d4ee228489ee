import BeEasy.FileTransmit.Wire
import BeEasy.CVerif.EventLoop

/-!
# FileTransmit — Receiver

`createFile`, `recvFileData` and `fileRecv`. The receiver is an event loop:
each pass of `while (flag)` takes one outcome of `recvfrom`, together with
the outcomes of the file operations and of `sendto` in that pass
(`RecvEvent`), and `fileRecvPass` is what the pass does.

The state is the globals the three functions share and the frame buffer.
Three fields are not variables of the program: `forgotten` holds the streams
that are still open though no variable points to them, `history` lists the
answered frames with what was done for them, and `sent` the packets handed to
the network.
-/

namespace BeEasy.FileTransmit

open CVerif

/-- A file open for writing: the pass that opened it, its name, the bytes
written out to it so far and those the stream holds back. The file was emptied
when it was opened, so the next byte goes behind the stored ones. -/
structure OutFile where
  id : Nat
  name : List Byte
  stored : List Byte
  buffer : List Byte

/-- All that the stream took. -/
def OutFile.content (file : OutFile) : List Byte := file.stored ++ file.buffer

/-- The stream writes out up to `n` of the bytes it holds back. -/
def OutFile.drain (file : OutFile) (n : Nat) : OutFile :=
  { file with stored := file.stored ++ file.buffer.take n, buffer := file.buffer.drop n }

/-- The stream takes the bytes, and writes out up to `drained` of all it then
holds. -/
def OutFile.fwrite (file : OutFile) (bytes : List Byte) (drained : Nat) : OutFile :=
  OutFile.drain { file with buffer := file.buffer ++ bytes } drained

/-- What one pass did to the file system. -/
inductive Effect where
  | none
  | fopen (ok : Bool)
  | fwrite (stream : Nat) (bytes : List Byte)
  | fflush (stream : Option Nat) (ok : Bool)

/-- A frame that was answered: the buffer it was handled in, what was done
for it, and the status passed to `sendAck`. -/
structure Exchange where
  frame : EthernetFrame
  effect : Effect
  reply : BitVec 32

structure RecvState where
  frame : EthernetFrame
  filename : List Byte
  filepath : List Byte
  fileSize : BitVec 64
  fp : Option OutFile
  forgotten : List OutFile
  fileCount : BitVec 32
  recvCount : BitVec 32
  history : List Exchange
  sent : List Packet

/-- The outcomes of one pass: what `recvfrom` delivers, whether `fopen`,
`fflush` and `sendto` succeed, and how many bytes `fwrite` can take. `drained`
is how many bytes the stream writes out within `fwrite`, `flushed` within an
`fflush` that fails, and `fclose` when it is closed. -/
structure RecvEvent where
  recvfrom : Option Packet
  fopen : Bool
  fwrite : Nat
  drained : Nat
  fflush : Bool
  flushed : Nat
  fclose : Nat
  sendto : Bool

/-- The state, the result and the effect a handler leaves. -/
structure Handled where
  state : RecvState
  ret : Int
  effect : Effect

/-! ## The handlers -/

/-- `createFile`. The stream of an earlier START is not closed, only
forgotten. `snprintf` cuts the name at `MAXLEN - 2` characters. -/
def createFile (host : Host) (s : RecvState) (fopen : Bool) : Handled :=
  let fAttr := s.frame.data
  let fileSize := ntohll host (loadLong host (field fAttr 8 8))
  let fileCount := (fileSize / BitVec.ofNat 64 TRANSMITSIZE + 1#64).setWidth 32
  let filepath := stringAt (field fAttr 16 (MAXLEN - 1))
  let fName := stringAt (field fAttr 144 (MAXLEN - 1))
  let filename := (filepath ++ fName).take (MAXLEN - 2)
  let s := { s with fileSize, fileCount, filepath, filename
                    forgotten := s.forgotten ++ s.fp.toList }
  if fopen then
    ⟨{ s with fp := some ⟨s.history.length, filename, [], []⟩ }, 0, .fopen true⟩
  else
    ⟨{ s with fp := none }, -1, .fopen false⟩

/-- `recvFileData`. `len` comes off the wire and bounds nothing before it
drives the copy, the checksum and the write. -/
def recvFileData (host : Host) (s : RecvState) (fwrite drained : Nat) :
    Except Fault Handled := do
  let off := SIZEOF_FILEDATA - TRANSMITSIZE
  let fData ← readBytes s.frame.data 0 off
  let sum := ntohl host (loadInt host (field fData 8 4))
  let len := ntohl host (loadInt host (field fData 4 4))
  let bytes ← readBytes s.frame.data off len.toNat
  let buf ← writeBytes (List.replicate TRANSMITSIZE 0) 0 bytes
  let sumCalc ← checksum buf len.toInt
  if sum ≠ sumCalc then
    return ⟨s, -1, .none⟩
  let out ← readBytes buf 0 len.toNat
  match s.fp with
  | none => throw .nullStream
  | some file =>
      let written := out.take fwrite
      let s := { s with fp := some (file.fwrite written drained) }
      if written.length ≠ len.toNat then
        return ⟨s, -1, .fwrite file.id written⟩
      return ⟨{ s with recvCount := s.recvCount + 1 }, 0, .fwrite file.id written⟩

/-- `fflush(fp)`; on NULL it flushes every open stream. -/
def flushFile (s : RecvState) (fflush : Bool) (flushed : Nat) : Handled :=
  let flush (file : OutFile) := file.drain (if fflush then file.buffer.length else flushed)
  let s := match s.fp with
    | some file => { s with fp := some (flush file) }
    | none => { s with forgotten := s.forgotten.map flush }
  ⟨s, if fflush then 0 else -1, .fflush (s.fp.map OutFile.id) fflush⟩

/-! ## The loop -/

/-- The `switch` on the status: the handler's outcome and `flag`. The last
branch leaves `ret` as `recvEtherFrame` set it. -/
def dispatch (host : Host) (s : RecvState) (ret : Int) (ev : RecvEvent) :
    Except Fault (Handled × Bool) :=
  let status := frameStatus host s.frame
  if status = START then .ok (createFile host s ev.fopen, true)
  else if status = ING then (recvFileData host s ev.fwrite ev.drained).map (·, true)
  else if status = END then .ok (flushFile s ev.fflush ev.flushed, false)
  else .ok (⟨s, ret, .none⟩, true)

/-- `sendAck(fd, &frame, htonl(stat))`, its result ignored. -/
def answer (host : Host) (h : Handled) (stat : BitVec 32) (sendto : Bool) :
    Except Fault RecvState := do
  let (_, pkt) ← sendAck host h.state.frame (htonl host stat) sendto
  return { h.state with
    history := h.state.history ++ [⟨h.state.frame, h.effect, stat⟩]
    sent := h.state.sent ++ pkt.toList }

/-- `quit`: the file is closed, if one is open. -/
def RecvState.quit (s : RecvState) (fclose : Nat) : RecvState :=
  { s with fp := s.fp.map (·.drain fclose) }

/-- The body of the loop after a frame came in. `quit` closes the file and
returns 0, and so does the end of the loop. -/
def handleFrame (host : Host) (s : RecvState) (ret : Int) (ev : RecvEvent) :
    Except Fault (Progress RecvState Int Fault) := do
  let (h, flag) ← dispatch host s ret ev
  if h.ret < 0 then
    let t ← answer host h FAIL ev.sendto
    return .returned (t.quit ev.fclose) 0
  else if h.ret = 0 then
    let t ← answer host h SUCCESS ev.sendto
    return if flag then .running t else .returned (t.quit ev.fclose) 0
  else
    return if flag then .running h.state else .returned (h.state.quit ev.fclose) 0

/-- One pass of `while (flag)` in `fileRecv`. -/
def fileRecvPass (host : Host) (s : RecvState) (ev : RecvEvent) :
    Progress RecvState Int Fault :=
  let (frame, ret) := recvEtherFrame host s.frame ev.recvfrom
  let s := { s with frame }
  if ret < 0 then .returned s (-1)
  else match handleFrame host s ret ev with
    | .ok p => p
    | .error f => .faulted f

/-- The state `fileRecv` starts in: nothing open, whatever is on the stack
in the frame buffer. -/
def RecvState.init (stack : EthernetFrame) : RecvState where
  frame := stack
  filename := []
  filepath := []
  fileSize := 0
  fp := none
  forgotten := []
  fileCount := 0
  recvCount := 0
  history := []
  sent := []

end BeEasy.FileTransmit
