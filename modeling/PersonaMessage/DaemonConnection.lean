import PersonaMessage.RouterCodec
import PersonaMessage.DaemonStamping

/-! One connection of the daemon from accept to reply, and the loop over connections.
Here every peer has finished: a stream is the bytes its peer writes before closing, and
the router is a function of the bytes it is sent. -/
namespace PersonaMessage.DaemonConnection
open ByteStream SignalFrames RouterCodec SignalRouterFrameCodec DaemonStamping

/-- The process behind a socket, for one connection to it. -/
structure Peer where
  connecting : Option IoError
  writing : Option IoError
  answer : Bytes → Bytes

/-- The bytes that reached the peer, and what the caller made of its answer. -/
structure Submission where
  delivered : Option Bytes
  result : Result MessageReply

variable (lib : MessageLibrary)

/-- The body that `SignalMessageClient::submit` and `SignalRouterClient::submit` share. -/
def submitTo (codec : SignalRouterFrameCodec) (peer : Peer) (request : MessageRequest) :
    Submission :=
  match peer.connecting with
  | some e => ⟨none, .error (.io e)⟩
  | none =>
    let exchange := connectorExchange
    let frame := requestFrameWithExchange lib exchange request
    match writeFrame lib frame with
    | .error e => ⟨none, .error e⟩
    | .ok bytes =>
      match peer.writing with
      | some e => ⟨none, .error (.io e)⟩
      | none =>
        match (codec.readFrame lib (peer.answer bytes)).1 with
        | .error e => ⟨some bytes, .error e⟩
        | .ok reply => ⟨some bytes, replyFromFrameForExchange lib reply exchange⟩

def SignalMessageClient.submit (daemon : Peer) (request : MessageRequest) : Submission :=
  submitTo lib .default daemon request

def SignalRouterClient.submit (router : Peer) (request : MessageRequest) : Submission :=
  submitTo lib .default router request

structure Forwarded where
  root : MessageDaemonRoot
  delivered : Option Bytes
  result : Result MessageReply

def MessageDaemonRoot.forward (root : MessageDaemonRoot) (request : MessageRequest)
    (ingress : MessageIngressContext) (now : ℤ) (router : Peer) : Forwarded :=
  match root.stampRequest request ingress now with
  | .error e => ⟨root, none, .error e⟩
  | .ok (.forward request) =>
    let submission := SignalRouterClient.submit lib router request
    match submission.result with
    | .error e => ⟨root, submission.delivered, .error e⟩
    | .ok reply => ⟨root.countForward, submission.delivered, .ok reply⟩
  | .ok (.reply reply) => ⟨root, none, .ok reply⟩

def readRequest (stream : Bytes) : Result ReceivedMessageRequest × Bytes :=
  match SignalRouterFrameCodec.default.readFrame lib stream with
  | (.error e, stream) => (.error e, stream)
  | (.ok frame, stream) => (requestFromFrame lib frame, stream)

/-- The bytes that `write_reply` hands to the client's stream. -/
def writeReply (received : ReceivedMessageRequest) (reply : MessageReply) : Result Bytes :=
  writeFrame lib (replyFrame received.exchange received.verb reply)

/-- An accepted connection with all that its peers and the clock will do. -/
structure Visit where
  authority : MessageIngressAuthority
  credentials : Option PeerCredentials
  incoming : Bytes
  now : ℤ
  router : Peer
  outgoing : Option IoError

structure Handled where
  root : MessageDaemonRoot
  delivered : Option Bytes
  replied : Option Bytes
  result : Result Unit

def handleConnection (root : MessageDaemonRoot) (visit : Visit) : Handled :=
  match visit.credentials with
  | none => ⟨root, none, none, .error .peerCredentials⟩
  | some peer =>
    match (readRequest lib visit.incoming).1 with
    | .error e => ⟨root, none, none, .error e⟩
    | .ok received =>
      let forwarded := MessageDaemonRoot.forward lib root received.request
        ⟨visit.authority, peer⟩ visit.now visit.router
      match forwarded.result with
      | .error e => ⟨forwarded.root, forwarded.delivered, none, .error e⟩
      | .ok reply =>
        match writeReply lib received reply with
        | .error e => ⟨forwarded.root, forwarded.delivered, none, .error e⟩
        | .ok bytes =>
          match visit.outgoing with
          | some e => ⟨forwarded.root, forwarded.delivered, none, .error (.io e)⟩
          | none => ⟨forwarded.root, forwarded.delivered, some bytes, .ok ()⟩

/-- The accept loop of `run` over the connections it accepts before a stop is requested.
An error of one connection leaves the loop. -/
def serve (root : MessageDaemonRoot) : List Visit → List Handled × Result MessageDaemonRoot
  | [] => ([], .ok root)
  | visit :: visits =>
    let handled := handleConnection lib root visit
    match handled.result with
    | .error e => ([handled], .error e)
    | .ok () =>
      let later := serve handled.root visits
      (handled :: later.1, later.2)

variable {lib}

/-- Serving the first frame depends on that frame's bytes alone. -/
theorem readRequest_append {stream rest : Bytes} {received : ReceivedMessageRequest}
    (h : readRequest lib stream = (.ok received, rest)) (more : Bytes) :
    readRequest lib (stream ++ more) = (.ok received, rest ++ more) := by
  unfold readRequest at h
  split at h
  · simp at h
  · next frame tail hf =>
    obtain ⟨hr, rfl⟩ := Prod.mk.inj h
    simp only [readRequest, readFrame_append hf, hr]

/-- A router exchange in which nothing fails. -/
structure Answered (lib : MessageLibrary) (peer : Peer) (request : MessageRequest)
    (bytes : Bytes) (reply : MessageReply) : Prop where
  connected : peer.connecting = none
  encoded : writeFrame lib (requestFrameWithExchange lib connectorExchange request) = .ok bytes
  written : peer.writing = none
  matched : ∃ frame,
    (SignalRouterFrameCodec.default.readFrame lib (peer.answer bytes)).1 = .ok frame ∧
      replyFromFrameForExchange lib frame connectorExchange = .ok reply

theorem submitTo_ok_iff {peer : Peer} {request : MessageRequest} {reply : MessageReply} :
    (submitTo lib .default peer request).result = .ok reply ↔
      ∃ bytes, Answered lib peer request bytes reply := by
  constructor
  · intro h
    unfold submitTo at h
    split at h
    · cases h
    · next hc =>
      dsimp only at h
      split at h
      · cases h
      · next bytes hb =>
        split at h
        · cases h
        · next hw =>
          split at h
          · cases h
          · next frame hf => exact ⟨bytes, hc, hb, hw, frame, hf, h⟩
  · rintro ⟨bytes, hc, hb, hw, frame, hf, hr⟩
    simp only [submitTo, hc, hb, hw, hf, hr]

theorem Answered.submitTo {peer : Peer} {request : MessageRequest} {bytes : Bytes}
    {reply : MessageReply} (h : Answered lib peer request bytes reply) :
    submitTo lib .default peer request = ⟨some bytes, .ok reply⟩ := by
  obtain ⟨hc, hb, hw, frame, hf, hr⟩ := h
  simp only [DaemonConnection.submitTo, hc, hb, hw, hf, hr]

end PersonaMessage.DaemonConnection
