import BeEasy.FileTransmit.Peers
import BeEasy.FileTransmit.SenderResult

/-!
# FileTransmit — Transfer

What `fileSend` and `fileRecv` achieve together. Over channels that deliver
every frame, with all calls succeeding, every run ends with the whole file
transferred and every request acknowledged (`transfer_delivers`). Over
channels that lose frames the file of the receiver is always a prefix of the
source, at most one chunk ahead of the acks (`transfer_prefix`).
-/

namespace BeEasy.FileTransmit

open CVerif
open CVerif.StopAndWait (Conf Phase Lossless)

/-! ## Without losses -/

/-- All the sender's calls of a turn succeed. -/
structure SendEvent.Well (S : Setting) (ev : SendEvent) : Prop where
  getLocalMacAddr : ev.getLocalMacAddr ≠ none
  getMacFromArp : ev.getMacFromArp = true
  macAton : ev.macAton ≠ none
  fopen : ev.fopen = some S.content
  fread : ev.fread = none
  sendto : ev.sendto = true

/-- The steps of the two programs when every frame is delivered and every
call succeeds: a program that waits for a frame goes on when there is one. -/
inductive Reliable (S : Setting) : Peers → Peers → Prop
  | sender {p s ev} (hs : p.sender = .running s) (hidle : ¬ s.pc.Waits) (hwell : ev.Well S)
      (hrecv : ev.recvfrom = none) : Reliable S p (p.senderMoves S s ev)
  | senderReceives {p s ev pkt rest} (hs : p.sender = .running s) (hwait : s.pc.Waits)
      (hq : p.toSend = pkt :: rest) (hrecv : ev.recvfrom = some pkt) :
      Reliable S p ({ p with toSend := rest }.senderMoves S s ev)
  | receiverReceives {p r ev pkt rest} (hr : p.receiver = .running r) (hok : ev.FilesOk)
      (hsend : ev.sendto = true) (hq : p.toRecv = pkt :: rest) (hrecv : ev.recvfrom = some pkt) :
      Reliable S p ({ p with toRecv := rest }.receiverMoves S r ev)

/-- Both loops have ended, every request was acknowledged with SUCCESS, and
the receiver's file is the source. -/
def Delivered (S : Setting) (p : Peers) : Prop :=
  ∃ s r, p.sender = .returned s SUCCESS.toInt ∧ Confirmed s.history ∧
    p.receiver = .returned r 0 ∧ r.output = S.content

/-- The state of a transfer in which nothing went wrong. -/
structure Healthy (S : Setting) (p : Peers) (c : Conf Request (BitVec 32)) : Prop where
  phase : Phase c
  lossless : Lossless c
  sim : Sim S p c
  running : ∀ s, p.sender = .running s → ConfirmedSoFar s
  returned : ∀ s v, p.sender = .returned s v → v = SUCCESS.toInt ∧ Confirmed s.history ∧
    c.waiting = false ∧ s.pc = .endAck
  served : ∀ r v, p.receiver = .returned r v → v = 0 ∧ .finish ∈ c.served

/-! The steps of a transfer left: three for each request still to come, two
for a request on its way, one for an ack. -/

def SendPc.requests (content : List Byte) : SendPc → Nat
  | .setup => (InStream.ofContent content).reads TRANSMITSIZE + 2
  | .reqAck _ fp => fp.reads TRANSMITSIZE + 1
  | .loop fp => fp.reads TRANSMITSIZE + 1
  | .dataAck _ fp => fp.reads TRANSMITSIZE + 1
  | .endAck => 0

def requestsLeft (content : List Byte) : Progress SendState Int Fault → Nat
  | .running s => s.pc.requests content
  | _ => 0

def Peers.stepsLeft (S : Setting) (p : Peers) : Nat :=
  3 * requestsLeft S.content p.sender + 2 * p.toRecv.length + p.toSend.length

section Lossless

variable {S : Setting} {p q : Peers} {c : Conf Request (BitVec 32)} {s : SendState}
  {ev : SendEvent}

/-- A sender that is not waiting issues its next request. -/
theorem SendEvent.Well.issues (hwell : ev.Well S) (hidle : ¬ s.pc.Waits) :
    ∃ t request pc, Asks s ev t request pc ∧
      fileSendTurn S.sendHost s ev = .running (t.issue S.sendHost request pc) := by
  rcases (fileSendTurn_spec S.sendHost s ev).idle hidle with
    ⟨_, hfail⟩ | ⟨t, request, pc, hask, ⟨_, hturn⟩ | ⟨hsend, _⟩⟩
  · rcases hfail with h | h | h | h
    · exact absurd h hwell.getLocalMacAddr
    · exact nomatch h.symm.trans hwell.getMacFromArp
    · exact absurd h hwell.macAton
    · exact nomatch h.symm.trans hwell.fopen
  · exact ⟨t, request, pc, hask, hturn⟩
  · exact nomatch hsend.symm.trans hwell.sendto

theorem Asks.requests {t : SendState} {request : Request} {pc : SendPc}
    (hask : Asks s ev t request pc) (hwell : ev.Well S) :
    pc.requests S.content + 1 ≤ s.pc.requests S.content := by
  cases hask with
  | start hpc hfrom harp hto hopen =>
      cases hopen.symm.trans hwell.fopen
      rw [hpc]
      exact Nat.le_refl _
  | @data fp hpc heof =>
      rw [hpc, hwell.fread]
      exact Nat.le_of_eq (congrArg (· + 1) (InStream.reads_fread (by decide) heof))
  | finish hpc heof =>
      rw [hpc]
      exact Nat.succ_le_succ (Nat.zero_le _)

/-- Taking an ack leaves the requests to come. -/
theorem requestsLeft_waiting {host : Host} (hwait : s.pc.Waits) :
    requestsLeft S.content (fileSendTurn host s ev) ≤ s.pc.requests S.content := by
  generalize hturn : fileSendTurn host s ev = u
  have hspec := hturn ▸ fileSendTurn_spec host s ev
  cases hspec with
  | issued hask hsend => exact absurd hwait hask.not_waits
  | startAcked hpc hr =>
      rw [hpc]
      exact Nat.le_refl _
  | chunkAcked hpc hr =>
      rw [hpc]
      exact Nat.le_refl _
  | _ => exact Nat.zero_le _

theorem Healthy.at (h : Healthy S p c) (hs : p.sender = .running s) :
    Sending S.content c.issued c.waiting (.running s) := by
  have hsending := h.sim.sender
  rwa [hs] at hsending

theorem SendEvent.Well.reads (hwell : ev.Well S) : ev.Reads S := by
  intro content hopen
  cases hopen.symm.trans hwell.fopen
  rfl

/-- Issuing a request. -/
theorem Healthy.issue (h : Healthy S p c) (hs : p.sender = .running s) (hidle : ¬ s.pc.Waits)
    (hwell : ev.Well S) : ∃ d, Healthy S (p.senderMoves S s ev) d ∧
      (p.senderMoves S s ev).stepsLeft S < p.stepsLeft S := by
  obtain ⟨t, request, pc, hask, hturn⟩ := hwell.issues hidle
  obtain ⟨hquiet, hsim⟩ := h.sim.issue hs hwell.reads hask hturn
  have hstep : StopAndWait.Reliable c (c.issue request) := .issue request hquiet
  have hmoves : p.senderMoves S s ev = { p with
      sender := .running (t.issue S.sendHost request pc)
      toRecv := p.toRecv ++ [requestPacket S.sendHost t request] } := by
    simp only [Peers.senderMoves, hturn, sentBy, SendState.issue, hask.sent.1, List.drop_left]
  refine ⟨c.issue request, ⟨h.phase.reliable hstep, h.phase.lossless hstep, hsim, ?_, ?_, ?_⟩, ?_⟩
  · intro u hu
    rw [hmoves] at hu
    cases hu
    exact (h.running s hs).turn (hturn ▸ fileSendTurn_spec S.sendHost s ev)
  · intro u v hu
    rw [hmoves] at hu
    cases hu
  · intro r v hr
    rw [hmoves] at hr
    exact h.served r v hr
  · have hless := hask.requests hwell
    rw [hmoves]
    simp only [Peers.stepsLeft, requestsLeft, SendState.issue_pc, hs, List.length_append,
      List.length_singleton]
    omega

/-- Taking an ack. -/
theorem Healthy.accept {pkt : Packet} {rest : List Packet} (h : Healthy S p c)
    (hs : p.sender = .running s) (hwait : s.pc.Waits) (hq : p.toSend = pkt :: rest)
    (hrecv : ev.recvfrom = some pkt) :
    ∃ d, Healthy S ({ p with toSend := rest }.senderMoves S s ev) d ∧
      ({ p with toSend := rest }.senderMoves S s ev).stepsLeft S < p.stepsLeft S := by
  obtain ⟨words, hc, hreply, hrest⟩ := h.sim.reply hq hrecv
  have hsim := h.sim.accept hs hwait hreply hrest
  have hstep : StopAndWait.Reliable c (c.accept words) := .accept ((h.at hs).waits hwait) hc
  have hspec := fileSendTurn_spec S.sendHost s ev
  obtain ⟨hsent, _, hresult⟩ := (h.at hs).1.accept hwait hreply hspec
  rw [senderMoves_quiet hsent] at hsim ⊢
  refine ⟨c.accept words, ⟨h.phase.reliable hstep, h.phase.lossless hstep, hsim, ?_, ?_, ?_⟩, ?_⟩
  · intro u hu
    have hu' : fileSendTurn S.sendHost s ev = .running u := hu
    exact (h.running s hs).turn (hu' ▸ hspec)
  · intro u v hu
    obtain ⟨hv, hpc⟩ := hresult u v hu
    refine ⟨hv, ?_, rfl, hpc⟩
    have htruthful :=
      ((h.running s hs).signedRefusal_iff hspec).mpr (signedRefusal_success hreply)
    have hu' : fileSendTurn S.sendHost s ev = .returned u v := hu
    rw [hu'] at htruthful
    exact htruthful.2 (by rw [hv]; decide)
  · intro r v hr
    exact h.served r v hr
  · have hless : requestsLeft S.content (fileSendTurn S.sendHost s ev)
        ≤ s.pc.requests S.content := requestsLeft_waiting hwait
    have hbefore : requestsLeft S.content p.sender = s.pc.requests S.content := by
      rw [hs]
      rfl
    have hlen : p.toSend.length = rest.length + 1 := by rw [hq, List.length_cons]
    simp only [Peers.stepsLeft]
    omega

/-- Serving a request. -/
theorem Healthy.serve {r : RecvState} {rev : RecvEvent} {pkt : Packet} {rest : List Packet}
    (h : Healthy S p c) (hr : p.receiver = .running r) (hok : rev.FilesOk)
    (hsend : rev.sendto = true) (hq : p.toRecv = pkt :: rest)
    (hrecv : rev.recvfrom = some pkt) :
    ∃ d, Healthy S ({ p with toRecv := rest }.receiverMoves S r rev) d ∧
      ({ p with toRecv := rest }.receiverMoves S r rev).stepsLeft S < p.stepsLeft S := by
  obtain ⟨request, requests, hc, hsim, hresult⟩ := h.sim.serve h.phase hr hok hq hrecv
  rw [hsend, if_pos rfl] at hsim
  have hstep : StopAndWait.Reliable c (c.serve request requests SUCCESS) := .serve _ hc
  refine ⟨_, ⟨h.phase.reliable hstep, h.phase.lossless hstep, hsim, h.running, h.returned, ?_⟩, ?_⟩
  · intro t v ht
    obtain ⟨hv, hfinish⟩ := hresult t v ht
    exact ⟨hv, hfinish ▸ List.mem_concat_self⟩
  · have hreq : p.toRecv.length = rest.length + 1 := by rw [hq, List.length_cons]
    have hacks := hsim.replies.length_eq
    rw [List.length_append, ← h.sim.replies.length_eq, List.length_singleton] at hacks
    have hsender : ({ p with toRecv := rest }.receiverMoves S r rev).sender = p.sender := rfl
    have hframes : ({ p with toRecv := rest }.receiverMoves S r rev).toRecv = rest := rfl
    rw [Peers.stepsLeft, Peers.stepsLeft, hacks, hsender, hframes, hreq]
    omega

/-- Every step of a healthy transfer keeps it so and brings its end nearer. -/
theorem healthy_step (h : ∃ c, Healthy S p c) (hstep : Reliable S p q) :
    (∃ d, Healthy S q d) ∧ q.stepsLeft S < p.stepsLeft S := by
  obtain ⟨c, hc⟩ := h
  cases hstep with
  | sender hs hidle hwell hrecv =>
      obtain ⟨d, hd, hless⟩ := hc.issue hs hidle hwell
      exact ⟨⟨d, hd⟩, hless⟩
  | senderReceives hs hwait hq hrecv =>
      obtain ⟨d, hd, hless⟩ := hc.accept hs hwait hq hrecv
      exact ⟨⟨d, hd⟩, hless⟩
  | receiverReceives hr hok hsend hq hrecv =>
      obtain ⟨d, hd, hless⟩ := hc.serve hr hok hsend hq hrecv
      exact ⟨⟨d, hd⟩, hless⟩

theorem finish_not_mem_script (attr : FileAttr) (chunks : List (List Byte)) :
    Request.finish ∉ script attr chunks := by
  simp [script]

/-- END is the last request of a transfer. -/
theorem Scripted.finish_not_before {served : List Request} {request : Request}
    (h : Scripted (served ++ [request])) : Request.finish ∉ served := by
  rcases h with hnil | ⟨attr, chunks, hscript | hscript⟩
  · simp at hnil
  · intro hmem
    exact finish_not_mem_script attr chunks (hscript ▸ List.mem_append_left _ hmem)
  · rw [(List.append_inj' hscript rfl).1]
    exact finish_not_mem_script attr chunks

/-- A receiver that has served END has ended. -/
theorem Serving.ended {served : List Request} {t : Progress RecvState Int Fault}
    (h : Serving served t) (hfinish : .finish ∈ served) : ∃ r v, t = .returned r v := by
  cases t with
  | running r =>
      -- a receiver that runs has served a START and data frames at most
      rcases h with ⟨rfl, _⟩ | ⟨attr, chunks, _, rfl, _⟩
      · exact absurd hfinish List.not_mem_nil
      · exact absurd hfinish (finish_not_mem_script attr chunks)
  | returned r v => exact ⟨r, v, rfl⟩
  | faulted f => exact h.elim

/-- A sender that has returned has transferred the file. -/
theorem Healthy.delivered {v : Int} (h : Healthy S p c) (hs : p.sender = .returned s v) :
    Delivered S p := by
  obtain ⟨rfl, hconfirmed, hquiet, hpc⟩ := h.returned s v hs
  have hat := h.sim.sender
  rw [hs] at hat
  obtain ⟨attr, hissued, hall⟩ := hat.of_endAck hpc
  obtain ⟨_, _, hserved⟩ := h.phase.quiet hquiet
  have hfinish : Request.finish ∈ c.served := by
    rw [hserved, hissued]
    exact List.mem_concat_self
  obtain ⟨r, v, hr⟩ := h.sim.receiver.ended hfinish
  obtain ⟨rfl, _⟩ := h.served r v hr
  have hout := h.sim.receiver
  rw [hr] at hout
  refine ⟨s, r, hs, hconfirmed, hr, ?_⟩
  calc r.output = fileOf c.served := hout
    _ = fileOf (script attr s.acked ++ [.finish]) := by rw [hserved, hissued]
    _ = s.acked.flatten := by rw [fileOf_concat_finish, fileOf_script]
    _ = S.content := hall

/-- A healthy transfer that has not delivered has somebody to move: a sender
that does not wait, or a program that a frame is on its way to. -/
theorem Healthy.next (h : Healthy S p c) : Delivered S p ∨
    (∃ s, p.sender = .running s ∧ ¬ s.pc.Waits) ∨
    (∃ s pkt rest, p.sender = .running s ∧ s.pc.Waits ∧ p.toSend = pkt :: rest) ∨
    ∃ r pkt rest, p.receiver = .running r ∧ p.toRecv = pkt :: rest := by
  cases hs : p.sender with
  | returned s v => exact .inl (h.delivered hs)
  | faulted f =>
      have hsending := h.sim.sender
      rw [hs] at hsending
      exact hsending.elim
  | running s =>
      by_cases hwait : s.pc.Waits
      · rcases h.lossless.moves ((h.at hs).waits hwait) with ⟨a, rest, hc⟩ | ⟨b, rest, hc⟩
        · -- the request on its way finds the receiver still running
          have hrequests := h.sim.requests
          rw [hc] at hrequests
          obtain ⟨pkt, pkts, _, _, hq⟩ := List.forall₂_cons_right_iff.mp hrequests
          cases hr : p.receiver with
          | running r => exact .inr (.inr (.inr ⟨r, pkt, pkts, rfl, hq⟩))
          | returned r v =>
              obtain ⟨_, _, _, hissued⟩ := h.phase.next hc
              have hscript : Scripted (c.served ++ [a]) := hissued ▸ (h.at hs).1.scripted
              exact absurd (h.served r v hr).2 hscript.finish_not_before
          | faulted f =>
              have hserving := h.sim.receiver
              rw [hr] at hserving
              exact hserving.elim
        · -- the ack on its way finds the sender at a `recvAck`
          have hreplies := h.sim.replies
          rw [hc] at hreplies
          obtain ⟨pkt, pkts, _, _, hq⟩ := List.forall₂_cons_right_iff.mp hreplies
          exact .inr (.inr (.inl ⟨s, pkt, pkts, rfl, hwait, hq⟩))
      · exact .inr (.inl ⟨s, rfl, hwait⟩)

theorem deliver_filesOk (pkt : Packet) : (deliver pkt).FilesOk :=
  ⟨rfl, Nat.le_refl _, rfl⟩

/-- A healthy transfer that has not delivered goes on. -/
theorem Healthy.moves (h : Healthy S p c) : Delivered S p ∨ ∃ q, Reliable S p q := by
  rcases h.next with hdone | ⟨s, hs, hidle⟩ | ⟨s, pkt, rest, hs, hwait, hq⟩ | ⟨r, pkt, rest, hr, hq⟩
  · exact .inl hdone
  · have hwell : SendEvent.Well S { startSent with fopen := some S.content } :=
      ⟨nofun, rfl, nofun, rfl, rfl, rfl⟩
    exact .inr ⟨_, .sender hs hidle hwell rfl⟩
  · have hrecv : { startSent with recvfrom := some pkt }.recvfrom = some pkt := rfl
    exact .inr ⟨_, .senderReceives hs hwait hq hrecv⟩
  · exact .inr ⟨_, .receiverReceives hr (deliver_filesOk pkt) rfl hq rfl⟩

end Lossless

/-- What a run starts from is healthy. -/
theorem healthy_init (S : Setting) (filename filepath : List Byte) (toAddr fromAddr : Mac)
    (stack : EthernetFrame) :
    ∃ c, Healthy S (Peers.init filename filepath toAddr fromAddr stack) c := by
  refine ⟨Conf.init, StopAndWait.phase_init, StopAndWait.lossless_init,
    Sim.init S filename filepath toAddr fromAddr stack, ?_, nofun, nofun⟩
  intro s hs
  cases hs
  exact confirmedSoFar_init filename filepath toAddr fromAddr

theorem delivers {S : Setting} {p : Peers} (h : ∃ c, Healthy S p c) :
    ∃ q, Relation.ReflTransGen (Reliable S) p q ∧ Delivered S q :=
  reaches_final (fun _ _ hp hstep => healthy_step hp hstep) (fun _ ⟨_, hp⟩ => hp.moves) h

/-- A one-byte file, from a little-endian host to a big-endian one. -/
def oneByte : Setting := ⟨.little, .big, [65]⟩

/-- The chunk whose ack the sender has not received. -/
def SendState.unacked (s : SendState) : Option (List Byte) :=
  match s.pc with
  | .dataAck chunk _ => some chunk
  | _ => none

/-- The receiver's file is a prefix of the source: the acknowledged chunks,
and the unacknowledged one or not. -/
def PrefixOf (content : List Byte) (s : SendState) (r : RecvState) : Prop :=
  r.output <+: content ∧ (r.output = s.acked.flatten ∨
    ∃ chunk, s.unacked = some chunk ∧ r.output = s.acked.flatten ++ chunk)

section Lossy

variable {content : List Byte} {s : SendState} {issued served : List Request} {waiting : Bool}
  {request : Request}

theorem fileOf_append (served rest : List Request) :
    fileOf (served ++ rest) = fileOf served ++ fileOf rest := by
  simp [fileOf]

/-- The chunks issued are the acknowledged ones and the one that is not. -/
theorem At.fileOf_issued (h : At content s issued waiting) : fileOf issued <+: content ∧
    (fileOf issued = s.acked.flatten ∨
      ∃ chunk, s.unacked = some chunk ∧ fileOf issued = s.acked.flatten ++ chunk) := by
  cases h with
  | setup hpc hack =>
      rw [hack]
      exact ⟨List.nil_prefix, .inl rfl⟩
  | reqAck hpc hack =>
      rw [hack, fileOf_script]
      exact ⟨List.nil_prefix, .inl rfl⟩
  | loop hpc hread hack =>
      rw [hack, fileOf_script, hread.chunks]
      exact ⟨List.take_prefix _ _, .inl rfl⟩
  | dataAck hpc hread hack =>
      rw [hack, fileOf_script]
      refine ⟨hread.chunks ▸ List.take_prefix _ _, .inr ⟨_, by rw [SendState.unacked, hpc], ?_⟩⟩
      simp
  | endAck hpc hread hack | done hpc hread hack =>
      rw [hack, fileOf_concat_finish, fileOf_script, hread]
      exact ⟨List.prefix_refl _, .inl rfl⟩

/-- While a request is not served the chunks before it are the acknowledged
ones. -/
theorem At.fileOf_before (h : At content s issued true) (hissued : issued = served ++ [request]) :
    fileOf served = s.acked.flatten := by
  cases h with
  | reqAck hpc hack =>
      rw [hack]
      have hnil : served = [] := (List.append_eq_singleton_iff.mp hissued.symm).elim
        (fun h => h.1) (fun h => nomatch h.2)
      rw [hnil]
      rfl
  | dataAck hpc hread hack =>
      rw [← script_concat] at hissued
      rw [hack, ← fileOf_script, (List.append_inj' hissued rfl).1]
  | endAck hpc hread hack =>
      rw [hack, ← fileOf_script, (List.append_inj' hissued rfl).1]

/-- **No chunk is lost in the middle, repeated or reordered**, whatever the
channels lose and however the sender's calls end. -/
theorem transfer_prefix (S : Setting) (filename filepath : List Byte) (toAddr fromAddr : Mac)
    (stack : EthernetFrame) {p : Peers} (run : Relation.ReflTransGen (Step S)
      (Peers.init filename filepath toAddr fromAddr stack) p) :
    ∃ s r, p.sender.state? = some s ∧ p.receiver.state? = some r ∧ PrefixOf S.content s r := by
  obtain ⟨c, hphase, hsim⟩ := reachable_sim run
  obtain ⟨s, hat, hs⟩ := hsim.sender.at
  obtain ⟨r, hr, hout⟩ := hsim.receiver.at
  refine ⟨s, r, hs, hr, ?_⟩
  rw [PrefixOf, hout]
  rcases hphase.served_or with hall | ⟨hwait, request, hissued⟩
  · -- the last request was served: its chunk is in the file, acknowledged or not
    rw [hall]
    exact hat.fileOf_issued
  · have hpre : fileOf c.served <+: fileOf c.issued := by
      rw [hissued, fileOf_append]
      exact List.prefix_append _ _
    rw [hwait] at hat
    exact ⟨hpre.trans hat.fileOf_issued.1, .inl (hat.fileOf_before hissued)⟩

end Lossy

theorem Reliable.step {S : Setting} {p q : Peers} (h : Reliable S p q) : Step S p q := by
  cases h with
  | sender hs hidle hwell hrecv => exact .sender hs hwell.reads hrecv
  | senderReceives hs hwait hq hrecv => exact .senderReceives hs hwait hq hrecv
  | receiverReceives hr hok hsend hq hrecv => exact .receiverReceives hr hok hq hrecv

/-- The whole transfer is one of the runs over lossy channels. -/
theorem transfer_prefix_oneByte :
    ∃ p s r, Delivered oneByte p ∧ p.sender.state? = some s ∧ p.receiver.state? = some r ∧
      PrefixOf oneByte.content s r := by
  obtain ⟨p, run, hdone⟩ := delivers (healthy_init oneByte [] [] blankMac blankMac blankFrame)
  have lossyRun : Relation.ReflTransGen (Step oneByte)
      (Peers.init [] [] blankMac blankMac blankFrame) p :=
    Relation.ReflTransGen.mono (fun _ _ h => Reliable.step h) _ _ run
  obtain ⟨s, r, hs, hr, hprefix⟩ :=
    transfer_prefix oneByte [] [] blankMac blankMac blankFrame lossyRun
  exact ⟨p, s, r, hdone, hs, hr, hprefix⟩

end BeEasy.FileTransmit
