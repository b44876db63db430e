import PersonaMessage.ChunkStream
import PersonaMessage.FrameProgress
import PersonaMessage.MessageContract

/-! `SignalRouterFrameCodec` and the request half of `src/router.rs`. A stream argument is
everything its peer writes before closing; a read returns what is left of it. -/
namespace PersonaMessage.RouterCodec
open ByteStream ChunkStream SignalFrames FrameProgress

structure ReceivedMessageRequest where
  exchange : ExchangeIdentifier
  verb : SignalVerb
  request : MessageRequest
  deriving DecidableEq

structure SignalRouterFrameCodec where
  maximumFrameBytes : ℕ
  deriving DecidableEq

namespace SignalRouterFrameCodec

def default : SignalRouterFrameCodec := ⟨1024*1024⟩

variable (lib : MessageLibrary) (codec : SignalRouterFrameCodec)

def readFrame (stream : Bytes) : Result MessageFrame × Bytes :=
  match readExact 4 stream with
  | (.error e, stream) => (.error (.io e), stream)
  | (.ok header, stream) =>
    let length := fromBeBytes header
    if codec.maximumFrameBytes < length then (.error (.daemonFrameTooLarge length), stream)
    else match readExact length stream with
      | (.error e, stream) => (.error (.io e), stream)
      | (.ok body, stream) =>
        match lib.decodeLengthPrefixed (header ++ body) with
        | .error e => (.error (.signalFrame e), stream)
        | .ok frame => (.ok frame, stream)

/-- `read_frame` of any stream, for any relation. -/
def readFrameFrom {Q R σ : Type} (reader : Reader σ) (lib : SignalLibrary Q R) (stream : σ) :
    Result (Frame Q R) × σ :=
  match reader.readExact 4 stream with
  | (.error e, stream) => (.error (.io e), stream)
  | (.ok header, stream) =>
    let length := fromBeBytes header
    if codec.maximumFrameBytes < length then (.error (.daemonFrameTooLarge length), stream)
    else match reader.readExact length stream with
      | (.error e, stream) => (.error (.io e), stream)
      | (.ok body, stream) =>
        match lib.decodeLengthPrefixed (header ++ body) with
        | .error e => (.error (.signalFrame e), stream)
        | .ok frame => (.ok frame, stream)

theorem readFrameFrom_whole (stream : Bytes) :
    codec.readFrameFrom .whole lib stream = codec.readFrame lib stream := by
  simp only [readFrameFrom, readFrame, Reader.whole]
  rcases readExact 4 stream with ⟨e | header, rest⟩
  · rfl
  · dsimp only
    rcases readExact (fromBeBytes header) rest with ⟨e | body, tail⟩
    · rfl
    · dsimp only
      cases lib.decodeLengthPrefixed (header ++ body) <;> rfl

/-- The error that `read_frame` makes of a fault. -/
def frameError : FrameFault → Error
  | .io e => .io e
  | .tooLarge length => .daemonFrameTooLarge length
  | .undecodable e => .signalFrame e

/-- The bytes that `write_frame` hands to the stream. -/
def writeFrame (frame : MessageFrame) : Result Bytes :=
  match lib.encodeLengthPrefixed frame with
  | .error e => .error (.signalFrame e)
  | .ok bytes => .ok bytes

def connectorExchange : ExchangeIdentifier := ⟨⟨0⟩, .connector, .first⟩

def requestFrameWithExchange (exchange : ExchangeIdentifier) (request : MessageRequest) :
    MessageFrame :=
  ⟨.request exchange (lib.fromPayload request)⟩

def requestFromFrame (frame : MessageFrame) : Result ReceivedMessageRequest :=
  match frame.intoBody with
  | .request exchange request =>
    match lib.intoChecked request with
    | .error (reason, _) => .error (.invalidSignalRequest reason)
    | .ok checked =>
      let (operation, tail) := checked.operations.intoHeadAndTail
      if tail.isEmpty then .ok ⟨exchange, operation.verb, operation.payload⟩
      else .error (.unexpectedDaemonInput
        s!"expected one message operation, got {tail.length+1}")
  | body => .error (.unexpectedDaemonInput (lib.debugBody body))

def replyFrame (exchange : ExchangeIdentifier) (verb : SignalVerb) (reply : MessageReply) :
    MessageFrame :=
  ⟨.reply exchange (.completed (.single (.ok verb reply)))⟩

def payloadFromReply (reply : Reply MessageReply) : Result MessageReply :=
  match reply with
  | .accepted _ perOperation =>
    let (subReply, tail) := perOperation.intoHeadAndTail
    if tail.isEmpty then
      match subReply with
      | .ok _ payload => .ok payload
      | subReply => .error (.unexpectedRouterReply (lib.debugSubReply subReply))
    else .error (.unexpectedRouterReply
      s!"expected one reply operation, got {tail.length+1}")
  | .rejected reason => .error (.unexpectedRouterReply (lib.debugReason reason))

def replyFromFrame (frame : MessageFrame) : Result MessageReply :=
  match frame.intoBody with
  | .reply _ reply => payloadFromReply lib reply
  | body => .error (.unexpectedRouterReply (lib.debugBody body))

def replyFromFrameForExchange (frame : MessageFrame) (expected : ExchangeIdentifier) :
    Result MessageReply :=
  match frame.intoBody with
  | .reply exchange reply =>
    if exchange = expected then payloadFromReply lib reply
    else .error (.unexpectedRouterReply (
      "reply exchange " ++ lib.debugExchange exchange ++ " did not match " ++
        lib.debugExchange expected))
  | body => .error (.unexpectedRouterReply (lib.debugBody body))

end SignalRouterFrameCodec

open SignalRouterFrameCodec
variable {lib : MessageLibrary} {codec : SignalRouterFrameCodec}

/-- A successful read used its frame's bytes alone: what follows them is left unread. -/
theorem readFrame_append {stream rest : Bytes} {frame : MessageFrame}
    (h : codec.readFrame lib stream = (.ok frame, rest)) (more : Bytes) :
    codec.readFrame lib (stream ++ more) = (.ok frame, rest ++ more) := by
  unfold readFrame at h
  split at h
  · simp at h
  · next header body hh =>
    obtain ⟨rfl, hl⟩ := readExact_ok hh
    dsimp only at h
    split_ifs at h with hm
    · simp at h
    · split at h
      · simp at h
      · next payload tail hb =>
        obtain ⟨rfl, hl'⟩ := readExact_ok hb
        split at h
        · simp at h
        · next decoded hd =>
          obtain ⟨hf, rfl⟩ := Prod.mk.inj h
          obtain rfl := Except.ok.inj hf
          rw [List.append_assoc, List.append_assoc]
          simp only [readFrame, readExact_append hl, readExact_append hl', if_neg hm, hd]

/-- A reader whose frame is complete reads that frame out of any continuation. -/
theorem readFrame_complete (lib : MessageLibrary) {got : Bytes}
    (hw : Within codec.maximumFrameBytes got)
    (hd : demand codec.maximumFrameBytes got = .complete) (rest : Bytes) :
    codec.readFrame lib (got ++ rest) =
      (match lib.decodeLengthPrefixed got with
        | .error e => .error (.signalFrame e)
        | .ok frame => .ok frame, rest) := by
  obtain ⟨h4, hl, he⟩ := hw.complete_length hd
  have hh : (got.take 4).length = 4 := by rw [List.length_take]; omega
  have hb : (got.drop 4).length = fromBeBytes (got.take 4) := by rw [List.length_drop]; omega
  have hs : got ++ rest = got.take 4 ++ (got.drop 4 ++ rest) := by
    rw [← List.append_assoc, List.take_append_drop]
  rw [hs]
  simp only [readFrame, readExact_append hh, if_neg (Nat.not_lt.mpr hl), readExact_append hb,
    List.take_append_drop]
  cases lib.decodeLengthPrefixed got <;> rfl

/-- A blocking read that ends with a frame is `readFrame` of the bytes it took. -/
theorem readFrame_of_readStep {stream : Duplex} {got : Bytes} {event : ReadEvent}
    {frame : MessageFrame} (hw : Within codec.maximumFrameBytes got)
    (h : readStep lib codec.maximumFrameBytes stream got event = some (.done (.ok frame))) :
    codec.readFrame lib got = (.ok frame, []) := by
  obtain ⟨hd, hf⟩ := readStep_ok h
  have hr := readFrame_complete lib hw hd []
  rwa [List.append_nil, hf] at hr

theorem readFrame_tooLarge {got : Bytes} {length : ℕ} (hw : Within codec.maximumFrameBytes got)
    (hd : demand codec.maximumFrameBytes got = .tooLarge length) (rest : Bytes) :
    codec.readFrame lib (got ++ rest) = (.error (.daemonFrameTooLarge length), rest) := by
  obtain ⟨hg, rfl, hl⟩ := hw.tooLarge_length hd
  simp only [readFrame, readExact_append hg, if_pos hl]

theorem readFrame_ended {got : Bytes} {wanted : ℕ}
    (hd : demand codec.maximumFrameBytes got = .more wanted) :
    codec.readFrame lib got = (.error (.io .unexpectedEof), []) := by
  rcases demand_more_cases hd with h4 | ⟨h4, hl, hb⟩
  · simp only [readFrame, readExact_short h4]
  · have hh : (got.take 4).length = 4 := by rw [List.length_take]; omega
    have hs : readExact 4 got = (.ok (got.take 4), got.drop 4) := by
      have h := readExact_append hh (got.drop 4)
      rwa [List.take_append_drop] at h
    have hd' : (got.drop 4).length < fromBeBytes (got.take 4) := by
      rw [List.length_drop]; omega
    simp only [readFrame, hs, if_neg (Nat.not_lt.mpr hl), readExact_short hd']

/-- A blocking read that ends, but not by a failed call, returns what `readFrame` makes of the
bytes it took, its refusals included. -/
theorem readFrame_done {stream : Duplex} {got : Bytes} {event : ReadEvent}
    {result : Except FrameFault MessageFrame} (hw : Within codec.maximumFrameBytes got)
    (hevent : ∀ e, event ≠ .failed e)
    (h : readStep lib codec.maximumFrameBytes stream got event = some (.done result)) :
    (codec.readFrame lib got).1 = result.mapError frameError := by
  have htake : got ++ [] = got := List.append_nil got
  unfold readStep at h
  split at h
  · split_ifs at h
    split at h <;> simp at h
  · next hd =>
    split_ifs at h
    obtain rfl := Reading.done.inj (Option.some.inj h)
    rw [readFrame_ended hd]
    rfl
  · exact absurd rfl (hevent _)
  · next hd =>
    obtain rfl := Reading.done.inj (Option.some.inj h)
    rw [← htake, readFrame_tooLarge hw hd []]
    rfl
  · next hd =>
    have hread := readFrame_complete lib hw hd []
    rw [htake] at hread
    rw [hread]
    split at h
    · next frame hf =>
      obtain rfl := Reading.done.inj (Option.some.inj h)
      rw [hf]
      rfl
    · next e hf =>
      obtain rfl := Reading.done.inj (Option.some.inj h)
      rw [hf]
      rfl
  · cases h

theorem writeFrame_ok {frame : MessageFrame} {bytes : Bytes}
    (h : writeFrame lib frame = .ok bytes) : lib.encodeLengthPrefixed frame = .ok bytes := by
  unfold writeFrame at h
  split at h
  · cases h
  · next b hb =>
    obtain rfl := Except.ok.inj h
    exact hb

/-- A frame that its library encodes within the limit is read back from its own bytes. -/
theorem readFrame_encoded {frame : MessageFrame} {bytes : Bytes}
    (h : lib.encodeLengthPrefixed frame = .ok bytes)
    (hl : bytes.length ≤ 4+codec.maximumFrameBytes) :
    codec.readFrame lib bytes = (.ok frame, []) := by
  have hd := lib.decode_encode h
  obtain ⟨body, hb, rfl⟩ := lib.encode_framed h
  have hn : ¬ codec.maximumFrameBytes < body.length := by
    simp only [List.length_append, toBeBytes_length] at hl
    omega
  have he : readExact body.length body = (.ok body, []) := by
    simpa using readExact_append (rfl : body.length = body.length) []
  simp only [readFrame, readExact_append (toBeBytes_length _), fromBeBytes_toBeBytes hb,
    if_neg hn, he, hd]

/-- A longer one is refused at its prefix. -/
theorem readFrame_refused {frame : MessageFrame} {bytes : Bytes}
    (h : lib.encodeLengthPrefixed frame = .ok bytes)
    (hl : 4+codec.maximumFrameBytes < bytes.length) :
    codec.readFrame lib bytes =
      (.error (.daemonFrameTooLarge (bytes.length-4)), bytes.drop 4) := by
  obtain ⟨body, hb, rfl⟩ := lib.encode_framed h
  rw [List.length_append, toBeBytes_length] at hl ⊢
  have hn : codec.maximumFrameBytes < body.length := by omega
  have hdrop : (toBeBytes body.length ++ body).drop 4 = body := rfl
  rw [hdrop, Nat.add_sub_cancel_left]
  simp only [readFrame, readExact_append (toBeBytes_length _), fromBeBytes_toBeBytes hb,
    if_pos hn]

/-- A request frame is admitted exactly with one operation whose verb is its payload's. -/
theorem requestFromFrame_iff {frame : MessageFrame} {received : ReceivedMessageRequest} :
    requestFromFrame lib frame = .ok received ↔
      ∃ request, frame.body = .request received.exchange request ∧
        request.operations = .single ⟨received.verb, received.request⟩ ∧
        received.verb = lib.signalVerb received.request := by
  constructor
  · intro h
    unfold requestFromFrame at h
    split at h
    · next exchange request hb =>
      split at h
      · cases h
      · next checked hc =>
        dsimp only [NonEmpty.intoHeadAndTail] at h
        split_ifs at h with ht
        obtain rfl := Except.ok.inj h
        have hops := NonEmpty.single_head (List.isEmpty_iff.mp ht)
        obtain ⟨ho, hv⟩ := lib.intoChecked_single_iff.mp ⟨checked, hc, hops⟩
        exact ⟨request, hb, ho, hv⟩
    · cases h
  · rintro ⟨request, hb, ho, hv⟩
    obtain ⟨checked, hc, hops⟩ := lib.intoChecked_single_iff.mpr ⟨ho, hv⟩
    simp [requestFromFrame, Frame.intoBody, hb, hc, hops, NonEmpty.intoHeadAndTail,
      NonEmpty.single]

/-- Admission keeps the one operation of a checked request and nothing else. -/
theorem requestFromFrame_ok {frame : MessageFrame} {received : ReceivedMessageRequest}
    (h : requestFromFrame lib frame = .ok received) :
    ∃ request, frame.body = .request received.exchange request ∧
      request.operations = .single ⟨received.verb, received.request⟩ := by
  obtain ⟨request, hb, ho, _⟩ := requestFromFrame_iff.mp h
  exact ⟨request, hb, ho⟩

theorem requestFromFrame_requestFrame (exchange : ExchangeIdentifier)
    (request : MessageRequest) :
    requestFromFrame lib (requestFrameWithExchange lib exchange request) =
      .ok ⟨exchange, lib.signalVerb request, request⟩ :=
  requestFromFrame_iff.mpr
    ⟨lib.fromPayload request, rfl, lib.fromPayload_operations request, rfl⟩

theorem replyFromFrameForExchange_single (exchange : ExchangeIdentifier)
    (outcome : AcceptedOutcome) (verb : SignalVerb) (reply : MessageReply) :
    replyFromFrameForExchange lib ⟨.reply exchange (.accepted outcome (.single (.ok verb reply)))⟩
      exchange = .ok reply := by
  simp [replyFromFrameForExchange, Frame.intoBody, payloadFromReply,
    NonEmpty.intoHeadAndTail, NonEmpty.single]

theorem replyFromFrameForExchange_replyFrame (exchange : ExchangeIdentifier)
    (verb : SignalVerb) (reply : MessageReply) :
    replyFromFrameForExchange lib (replyFrame exchange verb reply) exchange = .ok reply :=
  replyFromFrameForExchange_single exchange .completed verb reply

/-- A second operation is one too many, whatever the operations are. -/
theorem requestFromFrame_several {exchange : ExchangeIdentifier}
    {request : Request MessageRequest} (h : 2 ≤ request.operations.toList.length) :
    ∃ e, requestFromFrame lib ⟨.request exchange request⟩ = .error e := by
  cases hr : requestFromFrame lib ⟨.request exchange request⟩ with
  | error e => exact ⟨e, rfl⟩
  | ok received =>
    obtain ⟨request', hb, ho⟩ := requestFromFrame_ok hr
    obtain ⟨_, rfl⟩ := FrameBody.request.inj hb
    simp [ho, NonEmpty.toList, NonEmpty.single] at h

/-- The verbs are checked before the operations are counted. -/
theorem requestFromFrame_mismatch {exchange : ExchangeIdentifier}
    {request : Request MessageRequest} {i : ℕ} {op : Operation MessageRequest}
    (hi : request.operations.toList[i]? = some op) (hv : op.verb ≠ lib.signalVerb op.payload)
    (hfirst : ∀ op' ∈ request.operations.toList.take i, op'.verb = lib.signalVerb op'.payload) :
    requestFromFrame lib ⟨.request exchange request⟩ =
      .error (.invalidSignalRequest (.verbPayloadMismatch i)) := by
  cases hc : lib.intoChecked request with
  | ok checked =>
    exact absurd ((lib.intoChecked_iff request).mp ⟨checked, hc⟩ op (List.mem_of_getElem? hi)) hv
  | error rejection =>
    obtain ⟨reason, rejected⟩ := rejection
    obtain ⟨j, op', hj, hv', hfirst', rfl⟩ := lib.intoChecked_mismatch hc
    -- both indices are the first mismatch
    have hij : ¬ i < j := fun hlt =>
      hv (hfirst' op (List.mem_of_getElem? (by rwa [List.getElem?_take_of_lt hlt])))
    have hji : ¬ j < i := fun hlt =>
      hv' (hfirst op' (List.mem_of_getElem? (by rwa [List.getElem?_take_of_lt hlt])))
    obtain rfl : i = j := by omega
    simp [requestFromFrame, Frame.intoBody, hc]

theorem payloadFromReply_iff {reply : Reply MessageReply} {payload : MessageReply} :
    payloadFromReply lib reply = .ok payload ↔
      ∃ outcome verb, reply = .accepted outcome (.single (.ok verb payload)) := by
  constructor
  · intro h
    unfold payloadFromReply at h
    split at h
    · next outcome perOperation =>
      simp only [NonEmpty.intoHeadAndTail, List.isEmpty_iff] at h
      split_ifs at h with ht
      split at h
      · next verb p hp =>
        obtain rfl := Except.ok.inj h
        refine ⟨outcome, verb, ?_⟩
        cases perOperation with
        | mk head tail =>
          simp only at ht hp
          rw [ht, hp]
          rfl
      · cases h
    · cases h
  · rintro ⟨outcome, verb, rfl⟩
    rfl

theorem replyFromFrameForExchange_iff {frame : MessageFrame} {expected : ExchangeIdentifier}
    {payload : MessageReply} :
    replyFromFrameForExchange lib frame expected = .ok payload ↔
      ∃ outcome verb,
        frame.body = .reply expected (.accepted outcome (.single (.ok verb payload))) := by
  constructor
  · intro h
    unfold replyFromFrameForExchange Frame.intoBody at h
    split at h
    · next exchange reply hb =>
      split_ifs at h with he
      obtain ⟨outcome, verb, rfl⟩ := payloadFromReply_iff.mp h
      exact ⟨outcome, verb, he ▸ hb⟩
    · cases h
  · rintro ⟨outcome, verb, hb⟩
    have hp : payloadFromReply lib (.accepted outcome (.single (.ok verb payload))) =
        .ok payload := payloadFromReply_iff.mpr ⟨outcome, verb, rfl⟩
    simp [replyFromFrameForExchange, Frame.intoBody, hb, hp]

/-- The check of the exchange is all that the two readings of a reply differ in. -/
theorem replyFromFrame_checked_iff {frame : MessageFrame} {expected : ExchangeIdentifier}
    {payload : MessageReply} :
    replyFromFrameForExchange lib frame expected = .ok payload ↔
      replyFromFrame lib frame = .ok payload ∧ ∃ reply, frame.body = .reply expected reply := by
  rw [replyFromFrameForExchange_iff]
  constructor
  · rintro ⟨outcome, verb, hb⟩
    have hp : payloadFromReply lib (.accepted outcome (.single (.ok verb payload))) =
        .ok payload := payloadFromReply_iff.mpr ⟨outcome, verb, rfl⟩
    exact ⟨by simp [replyFromFrame, Frame.intoBody, hb, hp], _, hb⟩
  · rintro ⟨h, reply, hb⟩
    simp only [replyFromFrame, Frame.intoBody, hb] at h
    obtain ⟨outcome, verb, rfl⟩ := payloadFromReply_iff.mp h
    exact ⟨outcome, verb, hb⟩

theorem replyFromFrameForExchange_replyFrame_iff {exchange expected : ExchangeIdentifier}
    {verb : SignalVerb} {reply : MessageReply} :
    replyFromFrameForExchange lib (replyFrame exchange verb reply) expected = .ok reply ↔
      exchange = expected := by
  constructor
  · intro h
    obtain ⟨outcome, verb', hb⟩ := replyFromFrameForExchange_iff.mp h
    exact (FrameBody.reply.inj hb).1
  · rintro rfl
    exact replyFromFrameForExchange_replyFrame exchange verb reply

/-- What each side admits of a frame, and that it admits what the other one builds. -/
structure AdmitsExactly (lib : MessageLibrary) : Prop where
  request (frame : MessageFrame) (received : ReceivedMessageRequest) :
    requestFromFrame lib frame = .ok received ↔
      ∃ request, frame.body = .request received.exchange request ∧
        request.operations = .single ⟨received.verb, received.request⟩ ∧
        received.verb = lib.signalVerb received.request
  several (exchange : ExchangeIdentifier) (request : Request MessageRequest) :
    2 ≤ request.operations.toList.length →
      ∃ e, requestFromFrame lib ⟨.request exchange request⟩ = .error e
  mismatch (exchange : ExchangeIdentifier) (request : Request MessageRequest) (i : ℕ)
    (op : Operation MessageRequest) : request.operations.toList[i]? = some op →
      op.verb ≠ lib.signalVerb op.payload →
      (∀ op' ∈ request.operations.toList.take i, op'.verb = lib.signalVerb op'.payload) →
      requestFromFrame lib ⟨.request exchange request⟩ =
        .error (.invalidSignalRequest (.verbPayloadMismatch i))
  reply (frame : MessageFrame) (expected : ExchangeIdentifier) (payload : MessageReply) :
    replyFromFrameForExchange lib frame expected = .ok payload ↔
      ∃ outcome verb,
        frame.body = .reply expected (.accepted outcome (.single (.ok verb payload)))
  checked (frame : MessageFrame) (expected : ExchangeIdentifier) (payload : MessageReply) :
    replyFromFrameForExchange lib frame expected = .ok payload ↔
      replyFromFrame lib frame = .ok payload ∧ ∃ reply, frame.body = .reply expected reply
  requestFrame (exchange : ExchangeIdentifier) (request : MessageRequest) :
    requestFromFrame lib (requestFrameWithExchange lib exchange request) =
      .ok ⟨exchange, lib.signalVerb request, request⟩
  replyFrame (exchange expected : ExchangeIdentifier) (verb : SignalVerb)
    (reply : MessageReply) :
    replyFromFrameForExchange lib (replyFrame exchange verb reply) expected = .ok reply ↔
      exchange = expected

theorem frame_admission_exact (lib : MessageLibrary) : AdmitsExactly lib where
  request _ _ := requestFromFrame_iff
  several _ _ h := requestFromFrame_several h
  mismatch _ _ _ _ hi hv hfirst := requestFromFrame_mismatch hi hv hfirst
  reply _ _ _ := replyFromFrameForExchange_iff
  checked _ _ _ := replyFromFrame_checked_iff
  requestFrame := requestFromFrame_requestFrame
  replyFrame _ _ _ _ := replyFromFrameForExchange_replyFrame_iff

end PersonaMessage.RouterCodec
