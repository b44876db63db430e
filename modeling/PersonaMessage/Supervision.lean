import PersonaMessage.ChunkStream
import PersonaMessage.FrameProgress
import PersonaMessage.DaemonStamping

/-! The supervision relation of `src/supervision.rs`: the actor that answers its requests
and the codec of its connections. Payload fields that no code reads are left out. -/
namespace PersonaMessage.Supervision
open ByteStream ChunkStream SignalFrames FrameProgress DaemonStamping

structure ComponentName where
  text : String
  deriving DecidableEq

inductive ComponentKind
  | message
  | other (tag : ℕ)
  deriving DecidableEq

inductive ComponentHealth
  | running
  | other (tag : ℕ)
  deriving DecidableEq

structure SupervisionProtocolVersion where
  value : ℕ
  deriving DecidableEq

structure ComponentIdentity where
  name : ComponentName
  kind : ComponentKind
  supervisionProtocolVersion : SupervisionProtocolVersion
  lastFatalStartupError : Option String
  deriving DecidableEq

inductive SupervisionRequest
  | componentHello
  | componentReadinessQuery
  | componentHealthQuery
  | gracefulStopRequest
  deriving DecidableEq

inductive SupervisionReply
  | componentIdentity (identity : ComponentIdentity)
  | componentReady (componentStartedAt : Option TimestampNanos)
  | componentHealthReport (health : ComponentHealth)
  | gracefulStopAcknowledgement (drainCompletedAt : Option TimestampNanos)
  deriving DecidableEq

abbrev SupervisionFrame := Frame SupervisionRequest SupervisionReply
abbrev SupervisionLibrary := SignalLibrary SupervisionRequest SupervisionReply

structure SupervisionProfile where
  name : ComponentName
  kind : ComponentKind
  health : ComponentHealth
  deriving DecidableEq

def SupervisionProfile.message : SupervisionProfile :=
  ⟨⟨"persona-message"⟩, .message, .running⟩

structure SupervisionPhase where
  profile : SupervisionProfile
  requestCount : UInt64
  deriving DecidableEq

/-- What the actor answers, and whether it stores the stop flag while it does. -/
def SupervisionPhase.reply (phase : SupervisionPhase) (request : SupervisionRequest) :
    SupervisionPhase × Bool × SupervisionReply :=
  let phase := { phase with requestCount := saturatingAdd phase.requestCount 1 }
  match request with
  | .componentHello =>
    (phase, false, .componentIdentity ⟨phase.profile.name, phase.profile.kind, ⟨1⟩, none⟩)
  | .componentReadinessQuery => (phase, false, .componentReady none)
  | .componentHealthQuery => (phase, false, .componentHealthReport phase.profile.health)
  | .gracefulStopRequest => (phase, true, .gracefulStopAcknowledgement none)

structure ReceivedSupervisionRequest where
  exchange : ExchangeIdentifier
  verb : SignalVerb
  request : SupervisionRequest
  deriving DecidableEq

structure SupervisionFrameCodec where
  maximumFrameBytes : ℕ
  deriving DecidableEq

namespace SupervisionFrameCodec

/-- The codec of `SupervisionServer::new`. -/
def server : SupervisionFrameCodec := ⟨1024*1024⟩

/-- `read_frame` of any stream, for any relation. -/
def readFrame {Q R σ : Type} (codec : SupervisionFrameCodec) (reader : Reader σ)
    (lib : SignalLibrary Q R) (stream : σ) : Except IoError (Frame Q R) × σ :=
  match reader.readExact 4 stream with
  | (.error e, stream) => (.error e, stream)
  | (.ok header, stream) =>
    let length := fromBeBytes header
    if codec.maximumFrameBytes < length then
      (.error (.invalidData s!"supervision frame length {length} exceeds maximum"), stream)
    else match reader.readExact length stream with
      | (.error e, stream) => (.error e, stream)
      | (.ok body, stream) =>
        match lib.decodeLengthPrefixed (header ++ body) with
        | .error e => (.error (.invalidData e.detail), stream)
        | .ok frame => (.ok frame, stream)

/-- The error that `read_frame` makes of a fault. -/
def frameError : FrameFault → IoError
  | .io e => e
  | .tooLarge length => .invalidData s!"supervision frame length {length} exceeds maximum"
  | .undecodable e => .invalidData e.detail

/-- `read_request` after its `read_frame`. -/
def requestFromFrame (lib : SupervisionLibrary) (frame : SupervisionFrame) :
    Except IoError ReceivedSupervisionRequest :=
  match frame.intoBody with
  | .request exchange request =>
    match lib.intoChecked request with
    | .error (reason, _) => .error (.invalidData (lib.displayReason reason))
    | .ok checked =>
      let (operation, tail) := checked.operations.intoHeadAndTail
      if tail.isEmpty then .ok ⟨exchange, operation.verb, operation.payload⟩
      else .error (.invalidData s!"expected one supervision operation, got {tail.length+1}")
  | body => .error (.invalidData ("unexpected supervision frame body: " ++ lib.debugBody body))

def readRequest {σ : Type} (codec : SupervisionFrameCodec) (reader : Reader σ)
    (lib : SupervisionLibrary) (stream : σ) :
    Except IoError ReceivedSupervisionRequest × σ :=
  match codec.readFrame reader lib stream with
  | (.error e, stream) => (.error e, stream)
  | (.ok frame, stream) => (requestFromFrame lib frame, stream)

/-- `read_reply` after its `read_frame`. -/
def replyFromFrame (lib : SupervisionLibrary) (frame : SupervisionFrame) :
    Except IoError SupervisionReply :=
  match frame.intoBody with
  | .reply _ (.accepted _ perOperation) =>
    let (subReply, tail) := perOperation.intoHeadAndTail
    if tail.isEmpty then
      match subReply with
      | .ok _ payload => .ok payload
      | subReply => .error (.invalidData (lib.debugSubReply subReply))
    else .error (.invalidData
      s!"expected one supervision reply operation, got {tail.length+1}")
  | .reply _ (.rejected reason) => .error (.invalidData (lib.displayReason reason))
  | body => .error (.invalidData ("unexpected supervision frame body: " ++ lib.debugBody body))

def readReply {σ : Type} (codec : SupervisionFrameCodec) (reader : Reader σ)
    (lib : SupervisionLibrary) (stream : σ) : Except IoError SupervisionReply × σ :=
  match codec.readFrame reader lib stream with
  | (.error e, stream) => (.error e, stream)
  | (.ok frame, stream) => (replyFromFrame lib frame, stream)

def replyFrame (exchange : ExchangeIdentifier) (verb : SignalVerb) (reply : SupervisionReply) :
    SupervisionFrame :=
  ⟨.reply exchange (.completed (.single (.ok verb reply)))⟩

/-- The bytes that `write_reply` hands to the stream. -/
def writeReply (lib : SupervisionLibrary) (exchange : ExchangeIdentifier) (verb : SignalVerb)
    (reply : SupervisionReply) : Except IoError Bytes :=
  match lib.encodeLengthPrefixed (replyFrame exchange verb reply) with
  | .error e => .error (.invalidData e.detail)
  | .ok bytes => .ok bytes

end SupervisionFrameCodec

/-- The acknowledgement that the actor gives to a stop request. -/
def acknowledgement : SupervisionReply := .gracefulStopAcknowledgement none

/-- The profile's reply to a request, whatever was asked before. -/
def SupervisionProfile.reply (profile : SupervisionProfile) :
    SupervisionRequest → SupervisionReply
  | .componentHello => .componentIdentity ⟨profile.name, profile.kind, ⟨1⟩, none⟩
  | .componentReadinessQuery => .componentReady none
  | .componentHealthQuery => .componentHealthReport profile.health
  | .gracefulStopRequest => acknowledgement

theorem reply_profile (phase : SupervisionPhase) (request : SupervisionRequest) :
    (phase.reply request).1.profile = phase.profile ∧
      (phase.reply request).2.2 = phase.profile.reply request := by
  cases request <;> exact ⟨rfl, rfl⟩

theorem reply_stop_iff (phase : SupervisionPhase) (request : SupervisionRequest) :
    (phase.reply request).2.1 = true ↔ request = .gracefulStopRequest := by
  cases request <;> simp [SupervisionPhase.reply]

/-- A request is a frame with one operation under the verb of its payload. -/
theorem requestFromFrame_iff {lib : SupervisionLibrary} {frame : SupervisionFrame}
    {received : ReceivedSupervisionRequest} :
    SupervisionFrameCodec.requestFromFrame lib frame = .ok received ↔
      ∃ request, frame.body = .request received.exchange request ∧
        request.operations = .single ⟨received.verb, received.request⟩ ∧
        received.verb = lib.signalVerb received.request := by
  constructor
  · intro h
    unfold SupervisionFrameCodec.requestFromFrame at h
    split at h
    · next exchange request hb =>
      split at h
      · cases h
      · next checked hc =>
        dsimp only [NonEmpty.intoHeadAndTail] at h
        split_ifs at h with ht
        obtain rfl := Except.ok.inj h
        have hops := NonEmpty.single_head (List.isEmpty_iff.mp ht)
        obtain ⟨ho, hv⟩ := lib.intoChecked_single_iff.mp ⟨checked, hc, hops⟩
        exact ⟨request, hb, ho, hv⟩
    · cases h
  · rintro ⟨request, hb, ho, hv⟩
    obtain ⟨checked, hc, hops⟩ := lib.intoChecked_single_iff.mpr ⟨ho, hv⟩
    simp [SupervisionFrameCodec.requestFromFrame, Frame.intoBody, hb, hc, hops,
      NonEmpty.intoHeadAndTail, NonEmpty.single]

/-- A reply is a frame whose one operation went well, whatever exchange and verb it names. -/
theorem replyFromFrame_iff {lib : SupervisionLibrary} {frame : SupervisionFrame}
    {payload : SupervisionReply} :
    SupervisionFrameCodec.replyFromFrame lib frame = .ok payload ↔
      ∃ exchange outcome verb,
        frame.body = .reply exchange (.accepted outcome (.single (.ok verb payload))) := by
  constructor
  · intro h
    unfold SupervisionFrameCodec.replyFromFrame at h
    split at h
    · next exchange outcome perOperation hb =>
      dsimp only [NonEmpty.intoHeadAndTail] at h
      split_ifs at h with ht
      have hops := NonEmpty.single_head (List.isEmpty_iff.mp ht)
      split at h
      · next verb payload' hr =>
        obtain rfl := Except.ok.inj h
        rw [hr] at hops
        exact ⟨exchange, outcome, verb, hops ▸ hb⟩
      · cases h
    · cases h
    · cases h
  · rintro ⟨exchange, outcome, verb, hb⟩
    simp [SupervisionFrameCodec.replyFromFrame, Frame.intoBody, hb, NonEmpty.intoHeadAndTail,
      NonEmpty.single]

theorem writeReply_ok {lib : SupervisionLibrary} {exchange : ExchangeIdentifier}
    {verb : SignalVerb} {reply : SupervisionReply} {bytes : Bytes}
    (h : SupervisionFrameCodec.writeReply lib exchange verb reply = .ok bytes) :
    lib.encodeLengthPrefixed (SupervisionFrameCodec.replyFrame exchange verb reply) =
      .ok bytes := by
  unfold SupervisionFrameCodec.writeReply at h
  split at h
  · cases h
  · next b hb =>
    obtain rfl := Except.ok.inj h
    exact hb

end PersonaMessage.Supervision
