import PersonaMessage.DaemonIsolation

/-! `handle_connection` with every error that its calls can return. A peer that has gone may
leave an error on the stream in place of its end, and the root's actor may fail to answer. -/
namespace PersonaMessage.ConnectionFaults
open ByteStream SignalFrames FrameProgress RouterCodec SignalRouterFrameCodec DaemonStamping
  DaemonConnection

/-- An exact read of a stream on which this error follows the bytes. -/
def readExactEnding (ending : IoError) (size : ℕ) (stream : Bytes) :
    Except IoError Bytes × Bytes :=
  if size ≤ stream.length then (.ok (stream.take size), stream.drop size)
  else (.error ending, [])

variable (lib : MessageLibrary)

def readFrameEnding (codec : SignalRouterFrameCodec) (ending : IoError) (stream : Bytes) :
    Result MessageFrame × Bytes :=
  match readExactEnding ending 4 stream with
  | (.error e, stream) => (.error (.io e), stream)
  | (.ok header, stream) =>
    let length := fromBeBytes header
    if codec.maximumFrameBytes < length then (.error (.daemonFrameTooLarge length), stream)
    else match readExactEnding ending length stream with
      | (.error e, stream) => (.error (.io e), stream)
      | (.ok body, stream) =>
        match lib.decodeLengthPrefixed (header ++ body) with
        | .error e => (.error (.signalFrame e), stream)
        | .ok frame => (.ok frame, stream)

def readRequestEnding (ending : IoError) (stream : Bytes) :
    Result ReceivedMessageRequest × Bytes :=
  match readFrameEnding lib .default ending stream with
  | (.error e, stream) => (.error e, stream)
  | (.ok frame, stream) => (requestFromFrame lib frame, stream)

/-- `SignalRouterClient::submit` to a router after whose answer this error follows. -/
def submitEnding (ending : IoError) (router : Peer) (request : MessageRequest) : Submission :=
  match router.connecting with
  | some e => ⟨none, .error (.io e)⟩
  | none =>
    let exchange := connectorExchange
    let frame := requestFrameWithExchange lib exchange request
    match writeFrame lib frame with
    | .error e => ⟨none, .error e⟩
    | .ok bytes =>
      match router.writing with
      | some e => ⟨none, .error (.io e)⟩
      | none =>
        match (readFrameEnding lib .default ending (router.answer bytes)).1 with
        | .error e => ⟨some bytes, .error e⟩
        | .ok reply => ⟨some bytes, replyFromFrameForExchange lib reply exchange⟩

def forwardEnding (ending : IoError) (root : MessageDaemonRoot) (request : MessageRequest)
    (ingress : MessageIngressContext) (now : ℤ) (router : Peer) : Forwarded :=
  match root.stampRequest request ingress now with
  | .error e => ⟨root, none, .error e⟩
  | .ok (.forward request) =>
    let submission := submitEnding lib ending router request
    match submission.result with
    | .error e => ⟨root, submission.delivered, .error e⟩
    | .ok reply => ⟨root.countForward, submission.delivered, .ok reply⟩
  | .ok (.reply reply) => ⟨root, none, .ok reply⟩

/-- A visit with what else may happen to it: the errors that follow the client's bytes and the
router's answer, and the text of a `SendError` where the actor does not run its handler. -/
structure FaultyVisit extends Visit where
  reading : IoError
  asking : Option String
  answering : IoError

/-- `handle_connection` with all its branches. -/
def handle (root : MessageDaemonRoot) (visit : FaultyVisit) : Handled :=
  match visit.credentials with
  | none => ⟨root, none, none, .error .peerCredentials⟩
  | some peer =>
    match (readRequestEnding lib visit.reading visit.incoming).1 with
    | .error e => ⟨root, none, none, .error e⟩
    | .ok received =>
      match visit.asking with
      | some detail => ⟨root, none, none, .error (.actor "forward message request" detail)⟩
      | none =>
        let forwarded := forwardEnding lib visit.answering root received.request
          ⟨visit.authority, peer⟩ visit.now visit.router
        match forwarded.result with
        | .error e => ⟨forwarded.root, forwarded.delivered, none, .error e⟩
        | .ok reply =>
          match writeReply lib received reply with
          | .error e => ⟨forwarded.root, forwarded.delivered, none, .error e⟩
          | .ok bytes =>
            match visit.outgoing with
            | some e => ⟨forwarded.root, forwarded.delivered, none, .error (.io e)⟩
            | none => ⟨forwarded.root, forwarded.delivered, some bytes, .ok ()⟩

/-- The accept loop of `run` over these visits. -/
def serveAll (root : MessageDaemonRoot) :
    List FaultyVisit → List Handled × Result MessageDaemonRoot
  | [] => ([], .ok root)
  | visit :: visits =>
    let handled := handle lib root visit
    match handled.result with
    | .error e => ([handled], .error e)
    | .ok () =>
      let later := serveAll handled.root visits
      (handled :: later.1, later.2)

/-- A visit whose streams end where their bytes do, with an actor that answers. -/
def FaultyVisit.plain (visit : Visit) : FaultyVisit :=
  { visit with reading := .unexpectedEof, asking := none, answering := .unexpectedEof }

variable {lib}

/-- The error that a stream's ending makes of the one at a plain end. -/
def endingError (ending : IoError) : Error → Error
  | .io .unexpectedEof => .io ending
  | e => e

theorem readExact_error {size : ℕ} {stream rest : Bytes} {e : IoError}
    (h : readExact size stream = (.error e, rest)) : e = .unexpectedEof ∧ rest = [] := by
  unfold readExact at h
  split_ifs at h
  · simp at h
  · obtain ⟨he, rfl⟩ := Prod.mk.inj h
    exact ⟨(Except.error.inj he).symm, rfl⟩

theorem readExactEnding_eq (ending : IoError) (size : ℕ) (stream : Bytes) :
    readExactEnding ending size stream =
      ((readExact size stream).1.mapError fun _ => ending, (readExact size stream).2) := by
  unfold readExactEnding readExact
  split_ifs <;> rfl

/-- The ending shows where the plain read finds the end, and nowhere else. -/
theorem readFrameEnding_eq (codec : SignalRouterFrameCodec) (ending : IoError) (stream : Bytes) :
    readFrameEnding lib codec ending stream =
      ((codec.readFrame lib stream).1.mapError (endingError ending),
        (codec.readFrame lib stream).2) := by
  simp only [readFrameEnding, readFrame, readExactEnding_eq]
  cases hh : readExact 4 stream with
  | mk header rest =>
    cases header with
    | error e =>
      obtain ⟨rfl, rfl⟩ := readExact_error hh
      rfl
    | ok header =>
      dsimp only [Except.mapError]
      split_ifs
      · rfl
      · cases hb : readExact (fromBeBytes header) rest with
        | mk body tail =>
          cases body with
          | error e =>
            obtain ⟨rfl, rfl⟩ := readExact_error hb
            rfl
          | ok body =>
            dsimp only
            cases lib.decodeLengthPrefixed (header ++ body) <;> rfl

theorem readFrameEnding_plain (codec : SignalRouterFrameCodec) (stream : Bytes) :
    readFrameEnding lib codec .unexpectedEof stream = codec.readFrame lib stream := by
  rw [readFrameEnding_eq]
  rcases codec.readFrame lib stream with ⟨e | frame, rest⟩
  · cases e with
    | io e => cases e <;> rfl
    | _ => rfl
  · rfl

/-- A frame is read whatever follows it. -/
theorem readFrameEnding_ok {codec : SignalRouterFrameCodec} {stream rest : Bytes}
    {frame : MessageFrame} (h : codec.readFrame lib stream = (.ok frame, rest))
    (ending : IoError) : readFrameEnding lib codec ending stream = (.ok frame, rest) := by
  rw [readFrameEnding_eq, h]
  rfl

theorem readRequestEnding_ok {stream rest : Bytes} {received : ReceivedMessageRequest}
    (h : readRequest lib stream = (.ok received, rest)) (ending : IoError) :
    readRequestEnding lib ending stream = (.ok received, rest) := by
  unfold readRequest at h
  split at h
  · simp at h
  · next frame tail hf =>
    rw [readRequestEnding, readFrameEnding_ok hf]
    exact h

theorem readRequestEnding_error {ending : IoError} {stream : Bytes} {e : Error}
    (h : (readFrameEnding lib .default ending stream).1 = .error e) :
    (readRequestEnding lib ending stream).1 = .error e := by
  unfold readRequestEnding
  split
  · next he =>
    rw [he] at h
    obtain rfl := Except.error.inj h
    rfl
  · next he =>
    rw [he] at h
    cases h

theorem readRequestEnding_frame {ending : IoError} {stream : Bytes} {frame : MessageFrame}
    (h : (readFrameEnding lib .default ending stream).1 = .ok frame) :
    (readRequestEnding lib ending stream).1 = requestFromFrame lib frame := by
  unfold readRequestEnding
  split
  · next he =>
    rw [he] at h
    cases h
  · next he =>
    rw [he] at h
    obtain rfl := Except.ok.inj h
    rfl

/-- However a blocking read ends, it returns what is read of the bytes it took under one ending
of the stream. -/
theorem readFrameEnding_done {codec : SignalRouterFrameCodec} {stream : Duplex} {got : Bytes}
    {event : ReadEvent} {result : Except FrameFault MessageFrame}
    (hw : Within codec.maximumFrameBytes got)
    (h : readStep lib codec.maximumFrameBytes stream got event = some (.done result)) :
    ∃ ending, (readFrameEnding lib codec ending got).1 = result.mapError frameError := by
  by_cases he : ∃ e, event = .failed e
  · obtain ⟨e, rfl⟩ := he
    cases hd : demand codec.maximumFrameBytes got with
    | more wanted =>
      simp only [readStep, hd] at h
      split_ifs at h
      obtain rfl := Reading.done.inj (Option.some.inj h)
      refine ⟨e, ?_⟩
      rw [readFrameEnding_eq, readFrame_ended hd]
      rfl
    | tooLarge length => simp [readStep, hd] at h
    | complete => simp [readStep, hd] at h
  · refine ⟨.unexpectedEof, ?_⟩
    rw [readFrameEnding_plain]
    exact readFrame_done hw (fun e hf => he ⟨e, hf⟩) h

theorem readRequestEnding_plain (stream : Bytes) :
    readRequestEnding lib .unexpectedEof stream = readRequest lib stream := by
  have h := @readFrameEnding_plain lib .default stream
  cases hr : SignalRouterFrameCodec.default.readFrame lib stream with
  | mk result rest =>
    rw [hr] at h
    cases result <;> simp only [readRequestEnding, readRequest, h, hr]

theorem submitEnding_plain (router : Peer) (request : MessageRequest) :
    submitEnding lib .unexpectedEof router request =
      SignalRouterClient.submit lib router request := by
  cases hc : router.connecting with
  | some e => simp only [submitEnding, SignalRouterClient.submit, submitTo, hc]
  | none =>
    cases hb : writeFrame lib (requestFrameWithExchange lib connectorExchange request) with
    | error e => simp only [submitEnding, SignalRouterClient.submit, submitTo, hc, hb]
    | ok bytes =>
      cases hw : router.writing with
      | some e => simp only [submitEnding, SignalRouterClient.submit, submitTo, hc, hb, hw]
      | none =>
        cases hf : (SignalRouterFrameCodec.default.readFrame lib (router.answer bytes)).1 <;>
          simp only [submitEnding, SignalRouterClient.submit, submitTo, readFrameEnding_plain,
            hc, hb, hw, hf]

theorem forwardEnding_plain (root : MessageDaemonRoot) (request : MessageRequest)
    (ingress : MessageIngressContext) (now : ℤ) (router : Peer) :
    forwardEnding lib .unexpectedEof root request ingress now router =
      MessageDaemonRoot.forward lib root request ingress now router := by
  cases hs : root.stampRequest request ingress now with
  | error e => simp only [forwardEnding, MessageDaemonRoot.forward, hs]
  | ok decision =>
    cases decision with
    | forward image =>
      cases hr : (SignalRouterClient.submit lib router image).result <;>
        simp only [forwardEnding, MessageDaemonRoot.forward, submitEnding_plain, hs, hr]
    | reply reply => simp only [forwardEnding, MessageDaemonRoot.forward, hs]

/-- Where no fault of its own strikes a visit, it is served as `handleConnection` serves it. -/
theorem handle_plain (root : MessageDaemonRoot) (visit : Visit) :
    handle lib root (.plain visit) = handleConnection lib root visit := by
  cases hc : visit.credentials with
  | none => simp only [handle, handleConnection, FaultyVisit.plain, hc]
  | some peer =>
    cases hq : (readRequest lib visit.incoming).1 with
    | error e =>
      simp only [handle, handleConnection, FaultyVisit.plain, readRequestEnding_plain, hc, hq]
    | ok received =>
      cases hf : (MessageDaemonRoot.forward lib root received.request ⟨visit.authority, peer⟩
          visit.now visit.router).result with
      | error e =>
        simp only [handle, handleConnection, FaultyVisit.plain, readRequestEnding_plain,
          forwardEnding_plain, hc, hq, hf]
      | ok reply =>
        cases hw : writeReply lib received reply with
        | error e =>
          simp only [handle, handleConnection, FaultyVisit.plain, readRequestEnding_plain,
            forwardEnding_plain, hc, hq, hf, hw]
        | ok bytes =>
          cases ho : visit.outgoing <;>
            simp only [handle, handleConnection, FaultyVisit.plain, readRequestEnding_plain,
              forwardEnding_plain, hc, hq, hf, hw, ho]

/-- The loop over plain visits is the loop of `DaemonConnection`. -/
theorem serveAll_plain (root : MessageDaemonRoot) (visits : List Visit) :
    serveAll lib root (visits.map .plain) = serve lib root visits := by
  induction visits generalizing root with
  | nil => rfl
  | cons visit visits ih =>
    cases hr : (handleConnection lib root visit).result <;>
      simp only [List.map_cons, serveAll, serve, handle_plain, ih, hr]

end PersonaMessage.ConnectionFaults
