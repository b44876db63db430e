import PersonaMessage.IngressInvariant
import PersonaMessage.TableLibrary

/-! Provenance and correlation over whole runs of the accept loop: what is forwarded and
replied for a connection, in terms of that connection alone. -/
namespace PersonaMessage.IngressMachine
open ByteStream SignalFrames FrameProgress RouterCodec SignalRouterFrameCodec DaemonStamping
  DaemonConnection Transitions TableLibrary

/-- The bytes of a frame towards the router that holds this request. -/
def Carries (d : Deployment) (wire : Bytes) (request : MessageRequest) : Prop :=
  writeFrame d.lib (requestFrameWithExchange d.lib connectorExchange request) = .ok wire

/-- The request in the first frame of everything a client has written. -/
def FirstFrame (d : Deployment) (s : Ingress) (c : ConnId) (received : ReceivedMessageRequest) :
    Prop :=
  ∃ first rest, (s.connections c).stream.arrived = first ++ rest ∧
    readRequest d.lib first = (.ok received, [])

variable {d : Deployment} {log : List Action} {s : Ingress}

theorem Carries.unique {wire : Bytes} {a b : MessageRequest} (ha : Carries d wire a)
    (hb : Carries d wire b) : a = b := by
  have hda := d.lib.decode_encode (writeFrame_ok ha)
  have hdb := d.lib.decode_encode (writeFrame_ok hb)
  have hf := Except.ok.inj (hda.symm.trans hdb)
  have hab : d.lib.fromPayload a = d.lib.fromPayload b := by
    simp only [requestFrameWithExchange, Frame.mk.injEq, FrameBody.request.injEq, true_and] at hf
    exact hf
  have ho := congrArg Request.operations hab
  rw [d.lib.fromPayload_operations, d.lib.fromPayload_operations] at ho
  simp only [NonEmpty.single, NonEmpty.mk.injEq, Operation.mk.injEq, and_true] at ho
  exact ho.2

theorem FirstFrame.read {c : ConnId} {received : ReceivedMessageRequest}
    (h : FirstFrame d s c received) :
    (readRequest d.lib (s.connections c).stream.arrived).1 = .ok received := by
  obtain ⟨first, rest, ha, hr⟩ := h
  rw [ha, readRequest_append hr]

theorem FirstFrame.unique {c : ConnId} {a b : ReceivedMessageRequest}
    (ha : FirstFrame d s c a) (hb : FirstFrame d s c b) : a = b :=
  Except.ok.inj (ha.read.symm.trans hb.read)

theorem Decided.firstFrame {c : ConnId} {received : ReceivedMessageRequest}
    {decision : ForwardDecision} (h : Decided d (s.seen c) received decision) :
    FirstFrame d s c received := ⟨_, _, rfl, h.1⟩

/-- A decision to forward is a decision for the image under the connection's own context. -/
theorem Decided.image {v : Seen} {received : ReceivedMessageRequest} {image : MessageRequest}
    (h : Decided d v received (.forward image)) :
    ∃ ingress, ServedUnder d v ingress ∧
      StampedImage d.ownerIdentity ingress received.request image := by
  obtain ⟨_, ingress, now, hu, hs⟩ := h
  rcases stampRequest_ok hs with ⟨image', he, hi⟩ | ⟨_, _, he⟩
  · obtain rfl := ForwardDecision.forward.inj he
    exact ⟨ingress, hu, hi⟩
  · cases he

theorem Decided.unimplemented {v : Seen} {received : ReceivedMessageRequest} {reply : MessageReply}
    (h : Decided d v received (.reply reply)) :
    (∃ stamped, received.request = .stampedMessageSubmission stamped) ∧
      reply = MessageDaemonRoot.notInPrototypeScope := by
  obtain ⟨_, ingress, now, _, hs⟩ := h
  rcases stampRequest_ok hs with ⟨_, he, _⟩ | ⟨stamped, hr, he⟩
  · cases he
  · exact ⟨⟨stamped, hr⟩, ForwardDecision.reply.inj he⟩

theorem connected_seen (hi : Inv d log s) {c : ConnId} {listener : ℕ} {peer : PeerCredentials}
    (h : .connected c listener peer ∈ log) :
    listener = (s.seen c).listener ∧ peer = (s.seen c).peer := by
  have hm : .connected c listener peer ∈ history c log := mem_history.mpr ⟨h, rfl⟩
  generalize hh : history c log = entries at hm
  have hc := hi.conversation c
  rw [hh] at hc
  cases hc with
  | absent => simp at hm
  | _ => simpa [opened] using hm

/-- What a forward says about its connection. -/
theorem forwarded_decided (hi : Inv d log s) {c : ConnId} {wire : Bytes}
    (h : .forwarded c wire ∈ log) :
    ∃ received image, Decided d (s.seen c) received (.forward image) ∧ Carries d wire image ∧
      ∃ later, history c log = opened c (s.seen c) ++ .forwarded c wire :: later := by
  have hm : .forwarded c wire ∈ history c log := mem_history.mpr ⟨h, rfl⟩
  have hc := hi.conversation c
  generalize history c log = entries at hm hc
  cases hc with
  | absent => simp at hm
  | connected => simp at hm
  | accepted => simp [opened] at hm
  | forwarded decided encoded =>
    obtain rfl : wire = _ := by simpa [opened] using hm
    exact ⟨_, _, decided, encoded, _, rfl⟩
  | answered decided exchanged =>
    obtain rfl : wire = _ := by simpa [opened] using hm
    exact ⟨_, _, decided, exchanged.encoded, _, rfl⟩
  | replied decided exchanged encoded =>
    obtain rfl : wire = _ := by simpa [opened] using hm
    exact ⟨_, _, decided, exchanged.encoded, _, rfl⟩
  | repliedLocally decided encoded => simp [opened] at hm

/-- A submission that the run forwarded under a stamp, with the listener and the peer of
its connection. -/
def Stamped (d : Deployment) (log : List Action) (listener : ℕ) (peer : PeerCredentials)
    (stamped : StampedMessageSubmission) : Prop :=
  ∃ c wire, .connected c listener peer ∈ log ∧ .forwarded c wire ∈ log ∧
    Carries d wire (.stampedMessageSubmission stamped)

/-- The stamp is a function of the listener and of the peer. -/
theorem Stamped.origin (hi : Inv d log s) {listener : ℕ} {peer : PeerCredentials}
    {stamped : StampedMessageSubmission} (h : Stamped d log listener peer stamped) :
    ∃ authority, d.bindings[listener]? = some authority ∧
      stamped.origin = authority.originForPeer d.ownerIdentity peer := by
  obtain ⟨c, wire, hc, hf, hw⟩ := h
  obtain ⟨rfl, rfl⟩ := connected_seen hi hc
  obtain ⟨received, image, hd, hw', _⟩ := forwarded_decided hi hf
  obtain ⟨ingress, ⟨hb, hp⟩, himage⟩ := hd.image
  obtain rfl := hw.unique hw'
  refine ⟨ingress.authority, hb, ?_⟩
  generalize received.request = request at himage
  cases himage with
  | submission submission stampedAt => rw [MessageIngressContext.origin, hp]

/-- The origin that a listener and a peer stand for. -/
structure OriginFor (d : Deployment) (listener : ℕ) (peer : PeerCredentials)
    (origin : MessageOrigin) : Prop where
  internal : ∀ o, origin = .internalComponentInstance o ↔
    d.bindings[listener]? = some (.internalComponentInstance o)
  owner : origin = .external .owner ↔
    d.bindings[listener]? = some .externalPeer ∧ d.ownerIdentity = .unixUser peer.userId
  other : (∀ o, d.bindings[listener]? ≠ some (.internalComponentInstance o)) →
    d.ownerIdentity ≠ .unixUser peer.userId → origin = .external (.nonOwnerUser peer.userId)

theorem originFor_of_authority {listener : ℕ} {peer : PeerCredentials}
    {authority : MessageIngressAuthority} (h : d.bindings[listener]? = some authority) :
    OriginFor d listener peer (authority.originForPeer d.ownerIdentity peer) := by
  constructor
  · intro o
    rw [originForPeer_internal_iff, h, Option.some.injEq]
  · rw [originForPeer_owner_iff, h, Option.some.injEq]
  · intro hi ho
    cases authority with
    | internalComponentInstance o => exact absurd h (hi o)
    | externalPeer => rw [originForPeer_external, if_neg ho]

theorem forwarded_origin (hi : Inv d log s) {c : ConnId} {wire : Bytes}
    (hf : .forwarded c wire ∈ log) :
    ∃ received listener peer, FirstFrame d s c received ∧
      .connected c listener peer ∈ log ∧ .accepted c ∈ log ∧
      ((∃ query, received.request = .inboxQuery query ∧ Carries d wire (.inboxQuery query)) ∨
        ∃ submission origin stampedAt, received.request = .messageSubmission submission ∧
          Carries d wire (.stampedMessageSubmission ⟨submission, origin, stampedAt⟩) ∧
          OriginFor d listener peer origin) := by
  obtain ⟨received, image, hd, hw, later, hh⟩ := forwarded_decided hi hf
  obtain ⟨ingress, ⟨hb, hp⟩, himage⟩ := hd.image
  have hm : ∀ a ∈ opened c (s.seen c), a ∈ log := by
    intro a ha
    have hmem : a ∈ history c log := by
      rw [hh]
      exact List.mem_append_left _ ha
    exact (mem_history.mp hmem).1
  refine ⟨received, (s.seen c).listener, (s.seen c).peer, hd.firstFrame,
    hm _ (by simp [opened]), hm _ (by simp [opened]), ?_⟩
  obtain ⟨exchange, verb, request⟩ := received
  cases himage with
  | inboxQuery query => exact Or.inl ⟨query, rfl, hw⟩
  | submission submission stampedAt =>
    refine Or.inr ⟨submission, _, stampedAt, rfl, hw, ?_⟩
    rw [MessageIngressContext.origin, hp]
    exact originFor_of_authority hb

theorem forwarded_not_raw (hi : Inv d log s) {c : ConnId} {wire : Bytes}
    (hf : .forwarded c wire ∈ log) (submission : MessageSubmission) :
    ¬ Carries d wire (.messageSubmission submission) := by
  intro hw
  obtain ⟨received, image, hd, hw', _⟩ := forwarded_decided hi hf
  obtain ⟨ingress, _, himage⟩ := hd.image
  obtain rfl := hw.unique hw'
  exact himage.not_raw

theorem forwarded_not_stamped (hi : Inv d log s) {c : ConnId} {wire : Bytes}
    (hf : .forwarded c wire ∈ log) {received : ReceivedMessageRequest}
    (hfirst : FirstFrame d s c received) (stamped : StampedMessageSubmission) :
    received.request ≠ .stampedMessageSubmission stamped := by
  intro hstamped
  obtain ⟨received', image, hd, _⟩ := forwarded_decided hi hf
  obtain ⟨ingress, _, himage⟩ := hd.image
  obtain rfl := hfirst.unique hd.firstFrame
  rw [hstamped] at himage
  exact himage.not_stamped

/-- What reaches the router is an inbox query as the client wrote it, or the client's
submission under the origin of its own listener and user. The origin is the same in every
run, whatever the clients write, and under one owner it tells external users apart. -/
theorem provenance_unforgeable {listen listen' : RouterListener} {events events' : List Event}
    {log' : List Action} {s' : Ingress}
    (hr : (machine d).run (initial d listen) events = some (s, log))
    (hr' : (machine d).run (initial d listen') events' = some (s', log')) :
    (∀ c wire, .forwarded c wire ∈ log → ∃ received listener peer, FirstFrame d s c received ∧
      .connected c listener peer ∈ log ∧ .accepted c ∈ log ∧
      ((∃ query, received.request = .inboxQuery query ∧ Carries d wire (.inboxQuery query)) ∨
        ∃ submission origin stampedAt, received.request = .messageSubmission submission ∧
          Carries d wire (.stampedMessageSubmission ⟨submission, origin, stampedAt⟩) ∧
          OriginFor d listener peer origin)) ∧
    (∀ c wire submission, .forwarded c wire ∈ log →
      ¬ Carries d wire (.messageSubmission submission)) ∧
    (∀ c wire received stamped, .forwarded c wire ∈ log → FirstFrame d s c received →
      received.request ≠ .stampedMessageSubmission stamped) ∧
    (∀ listener peer peer' stamped stamped', peer.userId = peer'.userId →
      Stamped d log listener peer stamped → Stamped d log' listener peer' stamped' →
      stamped.origin = stamped'.origin) ∧
    (∀ peer peer' stamped stamped', Stamped d log 0 peer stamped →
      Stamped d log' 0 peer' stamped' →
      (stamped.origin = stamped'.origin ↔ peer.userId = peer'.userId)) := by
  have hi := inv_run hr
  have hi' := inv_run hr'
  refine ⟨fun c wire hf => forwarded_origin hi hf,
    fun c wire submission hf => forwarded_not_raw hi hf submission,
    fun c wire received stamped hf hfirst => forwarded_not_stamped hi hf hfirst stamped, ?_, ?_⟩
  · intro listener peer peer' stamped stamped' hu h h'
    obtain ⟨authority, hb, ho⟩ := h.origin hi
    obtain ⟨authority', hb', ho'⟩ := h'.origin hi'
    obtain rfl := Option.some.inj (hb.symm.trans hb')
    obtain rfl : peer = peer' := PeerCredentials.mk.injEq .. ▸ hu
    rw [ho, ho']
  · intro peer peer' stamped stamped' h h'
    obtain ⟨authority, hb, ho⟩ := h.origin hi
    obtain ⟨authority', hb', ho'⟩ := h'.origin hi'
    obtain rfl := Option.some.inj hb
    obtain rfl := Option.some.inj hb'
    rw [ho, ho', originForPeer_external_inj]

/-- What a reply on a connection answers: the router's answer to the request forwarded for
that connection, or the root's own answer to a stamped submission. -/
inductive ReplyFor (d : Deployment) (log : List Action) (c : ConnId) (wire : Bytes)
    (received : ReceivedMessageRequest) (reply : MessageReply) : Prop
  | fromRouter {image : MessageRequest} {forwarded answer : Bytes}
      (exchanged : Answered d.lib (routerWriting answer) image forwarded reply)
      (sent : Precedes log (.forwarded c forwarded) (.answered c answer))
      (returned : Precedes log (.answered c answer) (.replied c wire))
  | fromRoot {stamped : StampedMessageSubmission}
      (request : received.request = .stampedMessageSubmission stamped)
      (reply : reply = MessageDaemonRoot.notInPrototypeScope)

theorem replied_for (hi : Inv d log s) {c : ConnId} {wire : Bytes}
    (h : .replied c wire ∈ log) :
    (s.connections c).stream.sent = wire ∧ ∃ received reply, FirstFrame d s c received ∧
      writeReply d.lib received reply = .ok wire ∧ ReplyFor d log c wire received reply := by
  have hm : .replied c wire ∈ history c log := mem_history.mpr ⟨h, rfl⟩
  have hc := hi.conversation c
  generalize he : history c log = entries at hm hc
  cases hc with
  | absent => simp at hm
  | connected => simp at hm
  | accepted => simp [opened] at hm
  | forwarded decided encoded => simp [opened] at hm
  | answered decided exchanged => simp [opened] at hm
  | @replied received image forwarded answer reply decided exchanged encoded =>
    obtain rfl : wire = _ := by simpa [opened] using hm
    have hp : Precedes (history c log) (.forwarded c forwarded) (.answered c answer) :=
      he ▸ precedes_adjacent ..
    have hq : Precedes (history c log) (.answered c answer) (.replied c (s.seen c).sent) :=
      he ▸ precedes_adjacent (opened c (s.seen c) ++ [.forwarded c forwarded]) [] ..
    exact ⟨rfl, received, reply, decided.firstFrame, encoded,
      .fromRouter exchanged hp.of_filter hq.of_filter⟩
  | repliedLocally decided encoded =>
    obtain rfl : wire = _ := by simpa [opened] using hm
    obtain ⟨⟨stamped, hr⟩, hn⟩ := decided.unimplemented
    exact ⟨rfl, _, _, decided.firstFrame, encoded, .fromRoot hr hn⟩

theorem forwarded_image (hi : Inv d log s) {c : ConnId} {wire : Bytes}
    (hf : .forwarded c wire ∈ log) :
    ∃ received listener peer authority image, FirstFrame d s c received ∧
      .connected c listener peer ∈ log ∧ d.bindings[listener]? = some authority ∧
      StampedImage d.ownerIdentity ⟨authority, peer⟩ received.request image ∧
      Carries d wire image := by
  obtain ⟨received, image, hd, hw, later, hh⟩ := forwarded_decided hi hf
  obtain ⟨⟨authority, peer⟩, ⟨hb, rfl⟩, himage⟩ := hd.image
  have hm : .connected c (s.seen c).listener (s.seen c).peer ∈ history c log := by
    rw [hh]
    simp [opened]
  exact ⟨received, _, _, authority, image, hd.firstFrame, (mem_history.mp hm).1, hb, himage, hw⟩

/-- A connection that got its reply was served as `handleConnection` serves it alone. -/
theorem replied_refines (hi : Inv d log s) {c : ConnId} {wire : Bytes}
    (h : .replied c wire ∈ log) :
    ∃ visit : Visit, d.bindings[(s.seen c).listener]? = some visit.authority ∧
      visit.credentials = some (s.seen c).peer ∧
      visit.incoming = (s.connections c).stream.arrived ∧
      (handleConnection d.lib (.new d.ownerIdentity) visit).result = .ok () ∧
      (handleConnection d.lib (.new d.ownerIdentity) visit).replied = some wire ∧
      ∀ w, (handleConnection d.lib (.new d.ownerIdentity) visit).delivered = some w ↔
        .forwarded c w ∈ log := by
  have hm : .replied c wire ∈ history c log := mem_history.mpr ⟨h, rfl⟩
  have hf : ∀ w, .forwarded c w ∈ log ↔ .forwarded c w ∈ history c log :=
    fun w => ⟨fun hw => mem_history.mpr ⟨hw, rfl⟩, fun hw => (mem_history.mp hw).1⟩
  have hc := hi.conversation c
  generalize history c log = entries at hm hc hf
  cases hc with
  | absent => simp at hm
  | connected => simp at hm
  | accepted => simp [opened] at hm
  | forwarded decided encoded => simp [opened] at hm
  | answered decided exchanged => simp [opened] at hm
  | @replied received image forwarded answer reply decided exchanged encoded =>
    obtain rfl : wire = _ := by simpa [opened] using hm
    have hread := decided.firstFrame.read
    obtain ⟨_, ⟨authority, peer⟩, now, ⟨hb, rfl⟩, hs⟩ := decided
    refine ⟨⟨authority, some (s.seen c).peer, (s.connections c).stream.arrived, now,
      routerWriting answer, none⟩, hb, rfl, rfl, ?_⟩
    simp only [handleConnection, hread, MessageDaemonRoot.forward, hs,
      SignalRouterClient.submit, exchanged.submitTo, encoded, true_and]
    intro w
    rw [hf]
    simp [opened, eq_comm]
  | @repliedLocally received reply decided encoded =>
    obtain rfl : wire = _ := by simpa [opened] using hm
    have hread := decided.firstFrame.read
    obtain ⟨_, ⟨authority, peer⟩, now, ⟨hb, rfl⟩, hs⟩ := decided
    refine ⟨⟨authority, some (s.seen c).peer, (s.connections c).stream.arrived, now,
      routerWriting [], none⟩, hb, rfl, rfl, ?_⟩
    simp only [handleConnection, hread, MessageDaemonRoot.forward, hs, encoded, true_and]
    intro w
    rw [hf]
    simp [opened]

def ownerSubmission : MessageSubmission := ⟨⟨"designer"⟩, .send, ⟨"hello"⟩⟩

def ownerImage : MessageRequest :=
  .stampedMessageSubmission ⟨ownerSubmission, .external .owner, ⟨0⟩⟩

/-- The client's frame, the forwarded frame and the reply. -/
def submissionFrames : List MessageFrame :=
  [⟨.request connectorExchange ⟨.single ⟨verbOf ownerImage, .messageSubmission ownerSubmission⟩⟩⟩,
    ⟨.request connectorExchange ⟨.single ⟨verbOf ownerImage, ownerImage⟩⟩⟩,
    replyFrame connectorExchange (verbOf ownerImage) (.submissionAccepted ⟨⟨7⟩⟩)]

def ownerDeployment : Deployment :=
  ⟨messageLibrary submissionFrames, .unixUser ⟨1000⟩, [⟨"router", "main"⟩], 4096⟩

/-- The owner submits a message and closes nothing; the router accepts it. -/
def submissionEvents : List Event :=
  [.client (.connect 0 ⟨⟨1000⟩⟩), .client (.write 0 (frameBytes 0)), .main (.poll false),
    .main .accept, .main (.credentials true), .main (.read (.bytes 4)), .main (.read .check),
    .main (.stamp 0), .main .connect, .main (.write (.bytes 5)), .router (.write (frameBytes 2)),
    .main (.read (.bytes 4)), .main (.read (.bytes 2)), .main (.read .check),
    .main (.write (.bytes 6))]

def submissionLog : List Action :=
  [.connected 0 0 ⟨⟨1000⟩⟩, .accepted 0, .forwarded 0 (frameBytes 1), .answered 0 (frameBytes 2),
    .replied 0 (frameBytes 2)]

theorem submission_run : ∃ s,
    (machine ownerDeployment).run (initial ownerDeployment .ready) submissionEvents =
      some (s, submissionLog) := ⟨_, rfl⟩

theorem submission_provenance : ∃ s,
    (machine ownerDeployment).run (initial ownerDeployment .ready) submissionEvents =
      some (s, submissionLog) ∧
    ∃ received listener peer, FirstFrame ownerDeployment s 0 received ∧
      .connected 0 listener peer ∈ submissionLog ∧ .accepted 0 ∈ submissionLog ∧
      ((∃ query, received.request = .inboxQuery query ∧
          Carries ownerDeployment (frameBytes 1) (.inboxQuery query)) ∨
        ∃ submission origin stampedAt, received.request = .messageSubmission submission ∧
          Carries ownerDeployment (frameBytes 1)
            (.stampedMessageSubmission ⟨submission, origin, stampedAt⟩) ∧
          OriginFor ownerDeployment listener peer origin) := by
  obtain ⟨s, hr⟩ := submission_run
  exact ⟨s, hr, (provenance_unforgeable hr hr).1 0 (frameBytes 1) (by decide)⟩

end PersonaMessage.IngressMachine
