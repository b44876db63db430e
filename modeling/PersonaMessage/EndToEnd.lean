import PersonaMessage.CommandRun
import PersonaMessage.TableLibrary

/-! A command from its record to the router and back: the client's exchange with the daemon
around the daemon's exchange with the router. -/
namespace PersonaMessage.EndToEnd
open ByteStream SignalFrames RouterCodec SignalRouterFrameCodec DaemonStamping DaemonConnection
  NotaCodec CommandSurface CommandRun

/-- The daemon as one client finds it. -/
structure Daemon where
  root : MessageDaemonRoot
  authority : MessageIngressAuthority
  credentials : PeerCredentials
  now : ℤ
  router : Peer

def Daemon.ingress (daemon : Daemon) : MessageIngressContext :=
  ⟨daemon.authority, daemon.credentials⟩

/-- What the daemon does with a connection over which these bytes come in. -/
def Daemon.handled (lib : MessageLibrary) (daemon : Daemon) (incoming : Bytes) : Handled :=
  handleConnection lib daemon.root
    ⟨daemon.authority, some daemon.credentials, incoming, daemon.now, daemon.router, none⟩

def Daemon.peer (lib : MessageLibrary) (daemon : Daemon) : Peer :=
  ⟨none, none, fun incoming => (daemon.handled lib incoming).replied.getD []⟩

/-- The library encodes the frame within the limit of the codec. -/
def Fits (lib : MessageLibrary) (frame : MessageFrame) (bytes : Bytes) : Prop :=
  lib.encodeLengthPrefixed frame = .ok bytes ∧
    bytes.length ≤ 4+SignalRouterFrameCodec.default.maximumFrameBytes

/-- The four frames of a command whose request is forwarded as `image` and answered by the
router with `reply`. -/
structure Exchanged (lib : MessageLibrary) (daemon : Daemon) (input : Input)
    (image : MessageRequest) (reply : MessageReply) : Prop where
  forwarded : daemon.root.stampRequest input.intoMessageRequest daemon.ingress daemon.now =
    .ok (.forward image)
  clientRequest : ∃ bytes, Fits lib
    (requestFrameWithExchange lib connectorExchange input.intoMessageRequest) bytes
  routerExchange : daemon.router.connecting = none ∧ daemon.router.writing = none ∧
    ∃ bytes answer outcome verb,
      Fits lib (requestFrameWithExchange lib connectorExchange image) bytes ∧
      Fits lib ⟨.reply connectorExchange (.accepted outcome (.single (.ok verb reply)))⟩ answer ∧
      daemon.router.answer bytes = answer
  clientReply : ∃ bytes, Fits lib
    (replyFrame connectorExchange (lib.signalVerb input.intoMessageRequest) reply) bytes

/-- The request that a record asks the router for. -/
inductive Requested : Input → MessageRequest → Prop
  | send (recipient body : String) (origin : MessageOrigin) (stampedAt : TimestampNanos) :
      Requested (.send ⟨⟨recipient⟩, body⟩)
        (.stampedMessageSubmission ⟨⟨⟨recipient⟩, .send, ⟨body⟩⟩, origin, stampedAt⟩)
  | inbox (recipient : String) : Requested (.inbox ⟨⟨recipient⟩⟩) (.inboxQuery ⟨⟨recipient⟩⟩)

inductive ReasonProjected :
    PersonaMessage.SubmissionRejectionReason → CommandSurface.SubmissionRejectionReason → Prop
  | storeRejected : ReasonProjected .storeRejected .storeRejected
  | recipientNotFound : ReasonProjected .recipientNotFound .recipientNotFound

inductive EntryProjected : InboxEntry → RouterInboxEntry → Prop
  | entry (slot : UInt64) (sender body : String) :
      EntryProjected ⟨⟨slot⟩, ⟨sender⟩, ⟨body⟩⟩ ⟨slot, ⟨sender⟩, body⟩

/-- The record that shows a reply: the same variant with the same data, a listing entry by
entry. -/
inductive Projected : MessageReply → Output → Prop
  | submissionAccepted (slot : UInt64) :
      Projected (.submissionAccepted ⟨⟨slot⟩⟩) (.submissionAccepted ⟨slot⟩)
  | submissionRejected {reason : PersonaMessage.SubmissionRejectionReason}
      {shown : CommandSurface.SubmissionRejectionReason} (h : ReasonProjected reason shown) :
      Projected (.submissionRejected ⟨reason⟩) (.submissionRejected ⟨shown⟩)
  | inboxListing {messages : List InboxEntry} {shown : List RouterInboxEntry}
      (h : List.Forall₂ EntryProjected messages shown) :
      Projected (.inboxListing ⟨messages⟩) (.routerInboxListing ⟨shown⟩)
  | messageRequestUnimplemented (unimplemented : MessageRequestUnimplemented) :
      Projected (.messageRequestUnimplemented unimplemented)
        (.messageRequestUnimplemented unimplemented)

variable {lib : MessageLibrary} {nota : SurfaceLibrary} {daemon : Daemon} {input : Input}
  {image : MessageRequest} {reply : MessageReply}

theorem fromSignal_projected (messages : List InboxEntry) :
    List.Forall₂ EntryProjected messages (messages.map RouterInboxEntry.fromSignal) := by
  induction messages with
  | nil => exact .nil
  | cons entry messages ih => exact .cons (.entry ..) ih

theorem fromRouterReply_projected (reply : MessageReply) :
    ∃ output, Output.fromRouterReply reply = .ok output ∧ Projected reply output := by
  cases reply with
  | submissionAccepted acceptance => exact ⟨_, rfl, .submissionAccepted _⟩
  | submissionRejected rejection =>
    obtain ⟨reason⟩ := rejection
    cases reason with
    | storeRejected => exact ⟨_, rfl, .submissionRejected .storeRejected⟩
    | recipientNotFound => exact ⟨_, rfl, .submissionRejected .recipientNotFound⟩
  | inboxListing listing => exact ⟨_, rfl, .inboxListing (fromSignal_projected _)⟩
  | messageRequestUnimplemented unimplemented =>
    exact ⟨_, rfl, .messageRequestUnimplemented _⟩

/-- One request per frame, and nothing after it. -/
theorem readRequest_fits {request : MessageRequest} {bytes : Bytes}
    (h : Fits lib (requestFrameWithExchange lib connectorExchange request) bytes) :
    readRequest lib bytes =
      (.ok ⟨connectorExchange, lib.signalVerb request, request⟩, []) := by
  obtain ⟨hencode, hlength⟩ := h
  simp only [readRequest, readFrame_encoded hencode hlength, requestFromFrame_requestFrame]

theorem Exchanged.answered (h : Exchanged lib daemon input image reply) :
    ∃ bytes, Fits lib (requestFrameWithExchange lib connectorExchange image) bytes ∧
      Answered lib daemon.router image bytes reply := by
  obtain ⟨hconnect, hwrite, bytes, answer, outcome, verb, hbytes, hanswer, hrouter⟩ :=
    h.routerExchange
  refine ⟨bytes, hbytes, hconnect, by simp only [writeFrame, hbytes.1], hwrite, _, ?_,
    replyFromFrameForExchange_single connectorExchange outcome verb reply⟩
  rw [hrouter, readFrame_encoded hanswer.1 hanswer.2]

/-- The daemon's side: the request goes to the router once, and its answer goes back. -/
theorem Exchanged.handled (h : Exchanged lib daemon input image reply) {incoming : Bytes}
    (hin : Fits lib (requestFrameWithExchange lib connectorExchange input.intoMessageRequest)
      incoming) :
    ∃ bytes answer, Fits lib (requestFrameWithExchange lib connectorExchange image) bytes ∧
      Fits lib (replyFrame connectorExchange (lib.signalVerb input.intoMessageRequest) reply)
        answer ∧
      daemon.handled lib incoming =
        ⟨daemon.root.countForward, some bytes, some answer, .ok ()⟩ := by
  obtain ⟨bytes, hbytes, hanswered⟩ := h.answered
  obtain ⟨answer, hanswer⟩ := h.clientReply
  refine ⟨bytes, answer, hbytes, hanswer, ?_⟩
  have hforward : MessageDaemonRoot.forward lib daemon.root input.intoMessageRequest
      daemon.ingress daemon.now daemon.router =
      ⟨daemon.root.countForward, some bytes, .ok reply⟩ := by
    simp only [MessageDaemonRoot.forward, h.forwarded, SignalRouterClient.submit,
      hanswered.submitTo]
  have hreply : writeReply lib
      ⟨connectorExchange, lib.signalVerb input.intoMessageRequest, input.intoMessageRequest⟩
      reply = .ok answer := by
    simp only [writeReply, writeFrame, hanswer.1]
  rw [Daemon.ingress] at hforward
  simp only [Daemon.handled, handleConnection, readRequest_fits hin, hforward, hreply]

def sendInput : Input := .send ⟨⟨"designer"⟩, "signal-hello"⟩

def sendImage : MessageRequest :=
  .stampedMessageSubmission
    ⟨⟨⟨"designer"⟩, .send, ⟨"signal-hello"⟩⟩, .external .owner, ⟨5⟩⟩

def acceptedReply : MessageReply := .submissionAccepted ⟨⟨7⟩⟩

def sendFrames : List MessageFrame :=
  [⟨.request connectorExchange ⟨.single ⟨⟨"Assert"⟩, sendInput.intoMessageRequest⟩⟩⟩,
    ⟨.request connectorExchange ⟨.single ⟨⟨"Assert"⟩, sendImage⟩⟩⟩,
    ⟨.reply connectorExchange (.accepted .completed (.single (.ok ⟨"Assert"⟩ acceptedReply)))⟩]

def sendLibrary : MessageLibrary := TableLibrary.messageLibrary sendFrames

def socketVariable : OsString := ⟨some "message.sock", "message.sock", "message.sock", by simp⟩

end PersonaMessage.EndToEnd
