import PersonaMessage.IngressMachine

/-! What holds of every run of the accept loop: the history of each connection is a
conversation, and the connection being served is where the main thread says it is. -/
namespace PersonaMessage.IngressMachine
open ByteStream SignalFrames FrameProgress RouterCodec SignalRouterFrameCodec DaemonStamping
  DaemonConnection Transitions

/-- A connection as far as the daemon's own steps determine it. -/
structure Seen where
  listener : ℕ
  peer : PeerCredentials
  consumed : Bytes
  sent : Bytes
  queued : Bool

def Connection.seen (conn : Connection) : Seen :=
  ⟨conn.listener, conn.peer, conn.stream.consumed, conn.stream.sent, conn.queued⟩

def Ingress.seen (s : Ingress) (c : ConnId) : Seen := (s.connections c).seen

def history (c : ConnId) (log : List Action) : List Action := log.filter (fun a => a.conn == c)

theorem history_append (c : ConnId) (log out : List Action) :
    history c (log ++ out) = history c log ++ history c out := List.filter_append ..

theorem history_self {c : ConnId} {out : List Action} (h : ∀ a ∈ out, a.conn = c) :
    history c out = out :=
  List.filter_eq_self.mpr fun a ha => by simp [h a ha]

theorem history_other {c c' : ConnId} {out : List Action} (h : ∀ a ∈ out, a.conn = c)
    (hc : c' ≠ c) : history c' out = [] :=
  List.filter_eq_nil_iff.mpr fun a ha => by simpa [h a ha] using hc.symm

theorem mem_history {c : ConnId} {log : List Action} {a : Action} :
    a ∈ history c log ↔ a ∈ log ∧ a.conn = c := by simp [history]

/-- The context in which the daemon serves a connection. -/
def ServedUnder (d : Deployment) (v : Seen) (ingress : MessageIngressContext) : Prop :=
  d.bindings[v.listener]? = some ingress.authority ∧ ingress.peer = v.peer

/-- The first frame of the connection was admitted and decided upon. -/
def Decided (d : Deployment) (v : Seen) (received : ReceivedMessageRequest)
    (decision : ForwardDecision) : Prop :=
  readRequest d.lib v.consumed = (.ok received, []) ∧
    ∃ ingress now, ServedUnder d v ingress ∧
      (MessageDaemonRoot.new d.ownerIdentity).stampRequest received.request ingress now =
        .ok decision

/-- The router as one that writes these bytes on the connection it accepts. -/
def routerWriting (bytes : Bytes) : Peer := ⟨none, none, fun _ => bytes⟩

def opened (c : ConnId) (v : Seen) : List Action := [.connected c v.listener v.peer, .accepted c]

/-- The possible histories of one connection. A reply that was written is all that was. -/
inductive Conversation (d : Deployment) (c : ConnId) (v : Seen) : List Action → Prop
  | absent : Conversation d c v []
  | connected : Conversation d c v [.connected c v.listener v.peer]
  | accepted : Conversation d c v (opened c v)
  | forwarded {received : ReceivedMessageRequest} {image : MessageRequest} {wire : Bytes}
      (decided : Decided d v received (.forward image))
      (encoded : writeFrame d.lib (requestFrameWithExchange d.lib connectorExchange image) =
        .ok wire) :
      Conversation d c v (opened c v ++ [.forwarded c wire])
  | answered {received : ReceivedMessageRequest} {image : MessageRequest} {wire answer : Bytes}
      {reply : MessageReply} (decided : Decided d v received (.forward image))
      (exchanged : Answered d.lib (routerWriting answer) image wire reply) :
      Conversation d c v (opened c v ++ [.forwarded c wire, .answered c answer])
  | replied {received : ReceivedMessageRequest} {image : MessageRequest} {wire answer : Bytes}
      {reply : MessageReply} (decided : Decided d v received (.forward image))
      (exchanged : Answered d.lib (routerWriting answer) image wire reply)
      (encoded : writeReply d.lib received reply = .ok v.sent) :
      Conversation d c v
        (opened c v ++ [.forwarded c wire, .answered c answer, .replied c v.sent])
  | repliedLocally {received : ReceivedMessageRequest} {reply : MessageReply}
      (decided : Decided d v received (.reply reply))
      (encoded : writeReply d.lib received reply = .ok v.sent) :
      Conversation d c v (opened c v ++ [.replied c v.sent])

/-- The connection up to the reply: what the reply answers. -/
inductive ReplyDue (d : Deployment) (c : ConnId) (v : Seen) (received : ReceivedMessageRequest)
    (reply : MessageReply) : List Action → Prop
  | fromRouter {image : MessageRequest} {wire answer : Bytes}
      (decided : Decided d v received (.forward image))
      (exchanged : Answered d.lib (routerWriting answer) image wire reply) :
      ReplyDue d c v received reply (opened c v ++ [.forwarded c wire, .answered c answer])
  | fromRoot (decided : Decided d v received (.reply reply)) :
      ReplyDue d c v received reply (opened c v)

/-- What the phase of the main thread says about the connection it serves. -/
def Serves (d : Deployment) (h : ConnId → List Action) (seen : ConnId → Seen)
    (router : Duplex) : MainPhase → Prop
  | .opening c authority => h c = opened c (seen c) ∧ (seen c).consumed = [] ∧
      (seen c).sent = [] ∧ d.bindings[(seen c).listener]? = some authority
  | .reading c ingress got => h c = opened c (seen c) ∧ (seen c).consumed = got ∧
      (seen c).sent = [] ∧ ServedUnder d (seen c) ingress ∧ Within limit got
  | .forwarding c ingress received => h c = opened c (seen c) ∧ (seen c).sent = [] ∧
      ServedUnder d (seen c) ingress ∧ readRequest d.lib (seen c).consumed = (.ok received, [])
  | .connecting c received image => h c = opened c (seen c) ∧ (seen c).sent = [] ∧
      Decided d (seen c) received (.forward image)
  | .submitting c received rest => h c = opened c (seen c) ∧ (seen c).sent = [] ∧
      ∃ image wire, Decided d (seen c) received (.forward image) ∧
        writeFrame d.lib (requestFrameWithExchange d.lib connectorExchange image) = .ok wire ∧
        router.sent ++ rest = wire ∧ router.consumed = [] ∧ rest ≠ []
  | .awaiting c received got => (seen c).sent = [] ∧ Within limit got ∧ router.consumed = got ∧
      ∃ image wire, h c = opened c (seen c) ++ [.forwarded c wire] ∧
        Decided d (seen c) received (.forward image) ∧
        writeFrame d.lib (requestFrameWithExchange d.lib connectorExchange image) = .ok wire
  | .replying c rest => rest ≠ [] ∧ ∃ received reply, ReplyDue d c (seen c) received reply (h c) ∧
      writeReply d.lib received reply = .ok ((seen c).sent ++ rest)
  | _ => True

/-- The connection being served. -/
def MainPhase.current : MainPhase → Option ConnId
  | .opening c _ => some c
  | .reading c _ _ => some c
  | .forwarding c _ _ => some c
  | .connecting c _ _ => some c
  | .submitting c _ _ => some c
  | .awaiting c _ _ => some c
  | .replying c _ => some c
  | _ => none

def Action.isAnswered : Action → Bool
  | .answered _ _ => true
  | _ => false

structure InvAt (d : Deployment) (log : List Action) (seen : ConnId → Seen) (bound : ℕ)
    (root : MessageDaemonRoot) (router : Duplex) (phase : MainPhase) : Prop where
  conversation : ∀ c, Conversation d c (seen c) (history c log)
  queued : ∀ c, (seen c).queued = true →
    history c log = [.connected c (seen c).listener (seen c).peer] ∧
      (seen c).consumed = [] ∧ (seen c).sent = []
  unopened : ∀ c, bound ≤ c → history c log = []
  serves : Serves d (fun c => history c log) seen router phase
  owner : root.ownerIdentity = d.ownerIdentity
  counted : root.forwardedCount.toNat = min (2^64-1) (log.countP Action.isAnswered)

def Inv (d : Deployment) (log : List Action) (s : Ingress) : Prop :=
  InvAt d log s.seen s.opened s.root s.routerStream s.phase

variable {d : Deployment}

@[simp] theorem seen_setConnection (s : Ingress) (c : ConnId) (conn : Connection) :
    (s.setConnection c conn).seen = Function.update s.seen c conn.seen := by
  funext c'
  by_cases h : c' = c
  · subst h
    simp [Ingress.seen, Ingress.setConnection]
  · simp [Ingress.seen, Ingress.setConnection, h]

theorem seen_setStream (s : Ingress) (c : ConnId) {stream : Duplex}
    (hc : stream.consumed = (s.connections c).stream.consumed)
    (hs : stream.sent = (s.connections c).stream.sent) : (s.setStream c stream).seen = s.seen := by
  have hv : ({ s.connections c with stream } : Connection).seen = s.seen c := by
    simp only [Connection.seen, Ingress.seen, hc, hs]
  rw [Ingress.setStream, seen_setConnection, hv, Function.update_eq_self]

/-- A step that concerns one connection and leaves the others alone. -/
theorem Inv.advance {log out : List Action} {s t : Ingress} (hi : Inv d log s) {c : ConnId}
    {v : Seen} (hseen : t.seen = Function.update s.seen c v) (hopened : t.opened = s.opened)
    (hb : history c log ≠ []) (hq : v.queued = false) (ho : ∀ a ∈ out, a.conn = c)
    (hc : Conversation d c v (history c log ++ out))
    (hs : ∀ h seen, h c = history c log ++ out → seen c = v →
      Serves d h seen t.routerStream t.phase)
    (hr : t.root.ownerIdentity = s.root.ownerIdentity)
    (hn : t.root.forwardedCount.toNat = min (2^64-1) ((log ++ out).countP Action.isAnswered)) :
    Inv d (log ++ out) t := by
  have hself : history c (log ++ out) = history c log ++ out := by
    rw [history_append, history_self ho]
  have hother : ∀ c', c' ≠ c → history c' (log ++ out) = history c' log := by
    intro c' hc'
    rw [history_append, history_other ho hc', List.append_nil]
  have hv : t.seen c = v := by rw [hseen, Function.update_self]
  have hv' : ∀ c', c' ≠ c → t.seen c' = s.seen c' := by
    intro c' hc'
    rw [hseen, Function.update_of_ne hc']
  refine ⟨?_, ?_, ?_, hs _ _ hself hv, hr.trans hi.owner, hn⟩
  · intro c'
    by_cases hcc : c' = c
    · subst hcc
      rw [hv, hself]
      exact hc
    · rw [hv' c' hcc, hother c' hcc]
      exact hi.conversation c'
  · intro c' hq'
    by_cases hcc : c' = c
    · subst hcc
      rw [hv, hq] at hq'
      cases hq'
    · rw [hv' c' hcc] at hq' ⊢
      rw [hother c' hcc]
      exact hi.queued c' hq'
  · intro c' hb'
    rw [hopened] at hb'
    have hcc : c' ≠ c := by
      rintro rfl
      exact hb (hi.unopened c' hb')
    rw [hother c' hcc]
    exact hi.unopened c' hb'

/-- A step that emits nothing and leaves every connection as it was. -/
theorem Inv.move {log : List Action} {s t : Ingress} (hi : Inv d log s)
    (hseen : t.seen = s.seen) (hopened : t.opened = s.opened) (hroot : t.root = s.root)
    (hs : Serves d (fun c => history c log) s.seen t.routerStream t.phase) : Inv d log t := by
  have h := hi.conversation
  have hq := hi.queued
  have hb := hi.unopened
  rw [← hseen] at h hq hs
  rw [← hopened] at hb
  exact ⟨h, hq, hb, hs, hroot ▸ hi.owner, hroot ▸ hi.counted⟩

theorem Inv.exit {log : List Action} {s : Ingress} (hi : Inv d log s) (result : Result Unit) :
    Inv d log (s.exit result) := hi.move rfl rfl rfl trivial

/-- A connection that was accepted is known and has left its backlog. -/
theorem Inv.serving {log : List Action} {s : Ingress} (hi : Inv d log s) {c : ConnId}
    {more : List Action} (h : history c log = opened c (s.seen c) ++ more) :
    history c log ≠ [] ∧ (s.seen c).queued = false := by
  refine ⟨by simp [h, opened], ?_⟩
  by_contra hq
  have hq' := (hi.queued c (by simpa using hq)).1
  rw [h] at hq'
  simp [opened] at hq'

theorem ReplyDue.conversation {c : ConnId} {v : Seen} {received : ReceivedMessageRequest}
    {reply : MessageReply} {h : List Action} (hd : ReplyDue d c v received reply h) :
    Conversation d c v h := by
  cases hd with
  | fromRouter decided exchanged => exact .answered decided exchanged
  | fromRoot decided => exact .accepted

theorem waiting_spec {s : Ingress} {k : ℕ} {c : ConnId} (h : s.waiting k = some c) :
    c < s.opened ∧ (s.connections c).queued = true ∧ (s.connections c).listener = k := by
  have hp := List.find?_some h
  have hm := List.mem_range.mp (List.mem_of_find?_eq_some h)
  simp only [Bool.and_eq_true, beq_iff_eq] at hp
  exact ⟨hm, hp.1, hp.2⟩

theorem inv_startReply {log out : List Action} {s : Ingress} {root : MessageDaemonRoot}
    {c : ConnId} {received : ReceivedMessageRequest} {reply : MessageReply}
    (hi : Inv d log s) (hb : history c log ≠ []) (hq : (s.seen c).queued = false)
    (hv : (s.seen c).sent = []) (ho : ∀ a ∈ out, a.conn = c)
    (hd : ReplyDue d c (s.seen c) received reply (history c log ++ out))
    (hr : root.ownerIdentity = s.root.ownerIdentity)
    (hn : root.forwardedCount.toNat = min (2^64-1) ((log ++ out).countP Action.isAnswered)) :
    Inv d (log ++ out) (({ s with root } : Ingress).startReply d c received reply) := by
  have hu : s.seen = Function.update s.seen c (s.seen c) := (Function.update_eq_self ..).symm
  rcases @startReply_cases d { s with root } c received reply with ⟨result, ht⟩ | ⟨bytes, he, ht⟩
  · rw [ht]
    exact hi.advance hu rfl hb hq ho hd.conversation (fun _ _ _ _ => trivial) hr hn
  · rw [ht]
    refine hi.advance hu rfl hb hq ho hd.conversation (fun h seen hh hseen => ?_) hr hn
    refine ⟨d.lib.encode_ne_nil (writeFrame_ok he), received, reply, ?_, ?_⟩
    · rw [hh, hseen]
      exact hd
    · rw [hseen, hv]
      exact he

theorem inv_stepScan {log : List Action} {s : Ingress} {k : ℕ} (hi : Inv d log s) :
    Inv d (log ++ (stepScan d s k).2) (stepScan d s k).1 := by
  unfold stepScan
  split
  · simp only [List.append_nil]
    exact hi.move rfl rfl rfl trivial
  · next authority ha =>
    split
    · simp only [List.append_nil]
      exact hi.move rfl rfl rfl trivial
    · next c hw =>
      obtain ⟨_, hq, hl⟩ := waiting_spec hw
      obtain ⟨hh, hcons, hsent⟩ := hi.queued c hq
      have hh' : history c log ++ [Action.accepted c] = opened c (s.seen c) := by rw [hh]; rfl
      have hb : history c log ≠ [] := by simp [hh]
      have ho : ∀ a ∈ [Action.accepted c], a.conn = c := by simp [Action.conn]
      refine hi.advance (seen_setConnection ..) rfl hb rfl ho ?_ (fun h seen he hv => ?_) rfl ?_
      · rw [hh']
        exact .accepted
      · refine ⟨?_, ?_, ?_, ?_⟩
        · rw [he, hv, hh']
          rfl
        · rw [hv]
          exact hcons
        · rw [hv]
          exact hsent
        · rw [hv]
          subst hl
          exact ha
      · rw [List.countP_append]
        exact hi.counted

theorem setStream_seen (s : Ingress) (c : ConnId) (stream : Duplex) :
    (s.setStream c stream).seen = Function.update s.seen c
      { s.seen c with consumed := stream.consumed, sent := stream.sent } :=
  seen_setConnection ..

theorem setStream_sent {s : Ingress} {c : ConnId} {stream : Duplex}
    (h : stream.consumed = (s.connections c).stream.consumed) :
    (s.setStream c stream).seen =
      Function.update s.seen c { s.seen c with sent := stream.sent } := by
  rw [setStream_seen, h]
  rfl

theorem inv_stepReadRequest {log : List Action} {s t : Ingress} {c : ConnId}
    {ingress : MessageIngressContext} {got : Bytes} {event : ReadEvent} (hi : Inv d log s)
    (hp : s.phase = .reading c ingress got)
    (hs : stepReadRequest d s c ingress got event = some t) : Inv d log t := by
  have hserves := hi.serves
  rw [hp] at hserves
  obtain ⟨hh, hcons, hsent, hu, hw⟩ := hserves
  dsimp only at hh
  rcases stepReadRequest_cases hs with ⟨result, rfl⟩ | ⟨stream, got', hr, rfl⟩ |
    ⟨frame, received, hr, ha, rfl⟩
  · exact hi.exit result
  · obtain ⟨chunk, hc, rfl, hsent', _, hw'⟩ := readStep_more hr
    obtain ⟨hb, hq⟩ := hi.serving (hh.trans (List.append_nil _).symm)
    have hnil : log ++ [] = log := List.append_nil log
    rw [← hnil]
    refine hi.advance (setStream_seen ..) rfl hb hq (by simp) ?_ (fun h seen he hv => ?_) rfl ?_
    · rw [hh, List.append_nil]
      exact .accepted
    · refine ⟨?_, ?_, ?_, ?_, hw'⟩
      · rw [he, hv, hh, List.append_nil]
        rfl
      · rw [hv, hc, ← hcons]
        rfl
      · rw [hv, hsent', ← hsent]
        rfl
      · rw [hv]
        exact hu
    · rw [hnil]
      exact hi.counted
  · have hf := readFrame_of_readStep hw hr
    have hreq : readRequest d.lib got = (.ok received, []) := by
      simp only [readRequest, hf, ha]
    exact hi.move rfl rfl rfl ⟨hh, hsent, hu, hcons ▸ hreq⟩

theorem inv_stepStamp {log : List Action} {s : Ingress} {c : ConnId}
    {ingress : MessageIngressContext} {received : ReceivedMessageRequest} {now : ℤ}
    (hi : Inv d log s) (hp : s.phase = .forwarding c ingress received) :
    Inv d log (stepStamp d s c ingress received now) := by
  have hserves := hi.serves
  rw [hp] at hserves
  obtain ⟨hh, hsent, hu, hreq⟩ := hserves
  dsimp only at hh
  have hroot : s.root.stampRequest received.request ingress now =
      (MessageDaemonRoot.new d.ownerIdentity).stampRequest received.request ingress now :=
    stampRequest_root hi.owner received.request ingress now
  rcases @stepStamp_cases d s c ingress received now with ⟨result, ht⟩ | ⟨image, hd, ht⟩ |
    ⟨reply, hd, ht⟩
  · rw [ht]
    exact hi.exit result
  · rw [ht]
    exact hi.move rfl rfl rfl ⟨hh, hsent, hreq, ingress, now, hu, hroot ▸ hd⟩
  · rw [ht]
    obtain ⟨hb, hq⟩ := hi.serving (hh.trans (List.append_nil _).symm)
    have hr : ReplyDue d c (s.seen c) received reply (history c log ++ []) := by
      rw [List.append_nil, hh]
      exact .fromRoot ⟨hreq, ingress, now, hu, hroot ▸ hd⟩
    have hn : s.root.forwardedCount.toNat =
        min (2^64-1) ((log ++ []).countP Action.isAnswered) := by
      rw [List.append_nil]
      exact hi.counted
    have h := inv_startReply hi hb hq hsent (by simp) hr rfl hn
    rw [List.append_nil] at h
    exact h

theorem inv_stepConnect {log : List Action} {s t : Ingress} {c : ConnId}
    {received : ReceivedMessageRequest} {image : MessageRequest} (hi : Inv d log s)
    (hp : s.phase = .connecting c received image)
    (hs : stepConnect d s c received image = some t) : Inv d log t := by
  have hserves := hi.serves
  rw [hp] at hserves
  obtain ⟨hh, hsent, hd⟩ := hserves
  rcases stepConnect_cases hs with ⟨result, rfl⟩ | ⟨bytes, _, he, rfl⟩
  · exact hi.exit result
  · exact hi.move rfl rfl rfl ⟨hh, hsent, image, bytes, hd, he, rfl, rfl,
      d.lib.encode_ne_nil (writeFrame_ok he)⟩

theorem inv_stepSubmit {log out : List Action} {s t : Ingress} {c : ConnId}
    {received : ReceivedMessageRequest} {rest : Bytes} {event : WriteEvent} (hi : Inv d log s)
    (hp : s.phase = .submitting c received rest)
    (hs : stepSubmit d s c received rest event = some (t, out)) : Inv d (log ++ out) t := by
  have hserves := hi.serves
  rw [hp] at hserves
  obtain ⟨hh, hsent, image, wire, hd, he, hw, hr, hne⟩ := hserves
  dsimp only at hh
  rcases stepSubmit_cases hs with ⟨result, rfl, rfl⟩ | ⟨stream, hs', rfl, rfl⟩ |
    ⟨stream, rest', hs', hnil, rfl, rfl⟩
  · rw [List.append_nil]
    exact hi.exit result
  · obtain ⟨hsw, hsc⟩ := writeStep_ok hs'
    have hwire : stream.sent = wire := by rw [← hw, ← hsw, List.append_nil]
    obtain ⟨hb, hq⟩ := hi.serving (hh.trans (List.append_nil _).symm)
    have hu : s.seen = Function.update s.seen c (s.seen c) := (Function.update_eq_self ..).symm
    have hc : history c log ++ [Action.forwarded c stream.sent] =
        opened c (s.seen c) ++ [Action.forwarded c wire] := by rw [hh, hwire]
    refine hi.advance hu rfl hb hq (by simp [Action.conn]) ?_ (fun h seen hh' hv => ?_) rfl ?_
    · rw [hc]
      exact .forwarded hd he
    · rw [hc] at hh'
      refine ⟨?_, within_nil limit, ?_, image, wire, ?_, ?_, he⟩
      · rw [hv, hsent]
      · rw [hsc, hr]
      · rw [hv, hh']
      · rw [hv]
        exact hd
    · rw [List.countP_append]
      exact hi.counted
  · obtain ⟨hsw, hsc⟩ := writeStep_ok hs'
    rw [List.append_nil]
    exact hi.move rfl rfl rfl ⟨hh, hsent, image, wire, hd, he, hsw.trans hw, hsc.trans hr, hnil⟩

theorem inv_stepAwait {log out : List Action} {s t : Ingress} {c : ConnId}
    {received : ReceivedMessageRequest} {got : Bytes} {event : ReadEvent} (hi : Inv d log s)
    (hp : s.phase = .awaiting c received got)
    (hs : stepAwait d s c received got event = some (t, out)) : Inv d (log ++ out) t := by
  have hserves := hi.serves
  rw [hp] at hserves
  obtain ⟨hsent, hw, hcons, image, wire, hh, hd, he⟩ := hserves
  dsimp only at hh
  rcases stepAwait_cases hs with ⟨result, rfl, rfl⟩ | ⟨stream, got', hr, rfl, rfl⟩ |
    ⟨frame, reply, hr, ha, rfl, rfl⟩
  · rw [List.append_nil]
    exact hi.exit result
  · obtain ⟨chunk, hc, rfl, _, _, hw'⟩ := readStep_more hr
    rw [List.append_nil]
    refine hi.move rfl rfl rfl ⟨hsent, hw', ?_, image, wire, hh, hd, he⟩
    rw [hc, hcons]
  · have hf := readFrame_of_readStep hw hr
    have hanswer : Answered d.lib (routerWriting got) image wire reply :=
      ⟨rfl, he, rfl, frame, congrArg Prod.fst hf, ha⟩
    obtain ⟨hb, hq⟩ := hi.serving hh
    refine inv_startReply hi hb hq hsent (by simp [Action.conn]) ?_ rfl ?_
    · rw [hh, List.append_assoc]
      exact .fromRouter hd hanswer
    · rw [List.countP_append]
      exact MessageDaemonRoot.countForward_toNat hi.counted

theorem ReplyDue.listed {c : ConnId} {v : Seen} {received : ReceivedMessageRequest}
    {reply : MessageReply} {h : List Action} (hd : ReplyDue d c v received reply h) :
    ∃ more, h = opened c v ++ more := by
  cases hd with
  | fromRouter decided exchanged => exact ⟨_, rfl⟩
  | fromRoot decided => exact ⟨[], (List.append_nil _).symm⟩

/-- What is due does not depend on how much of it has been written. -/
theorem ReplyDue.sent {c : ConnId} {v : Seen} {received : ReceivedMessageRequest}
    {reply : MessageReply} {h : List Action} (hd : ReplyDue d c v received reply h)
    (written : Bytes) : ReplyDue d c { v with sent := written } received reply h := by
  cases hd with
  | fromRouter decided exchanged => exact .fromRouter decided exchanged
  | fromRoot decided => exact .fromRoot decided

theorem ReplyDue.replied {c : ConnId} {v : Seen} {received : ReceivedMessageRequest}
    {reply : MessageReply} {h : List Action} (hd : ReplyDue d c v received reply h)
    (he : writeReply d.lib received reply = .ok v.sent) :
    Conversation d c v (h ++ [Action.replied c v.sent]) := by
  cases hd with
  | fromRouter decided exchanged => exact .replied decided exchanged he
  | fromRoot decided => exact .repliedLocally decided he

theorem inv_stepReply {log out : List Action} {s t : Ingress} {c : ConnId} {rest : Bytes}
    {event : WriteEvent} (hi : Inv d log s) (hp : s.phase = .replying c rest)
    (hs : stepReply d s c rest event = some (t, out)) : Inv d (log ++ out) t := by
  have hserves := hi.serves
  rw [hp] at hserves
  obtain ⟨hne, received, reply, hd, he⟩ := hserves
  dsimp only at hd
  obtain ⟨more, hh⟩ := hd.listed
  obtain ⟨hb, hq⟩ := hi.serving hh
  rcases stepReply_cases hs with ⟨result, rfl, rfl⟩ | ⟨stream, hs', rfl, rfl⟩ |
    ⟨stream, rest', hs', hnil, rfl, rfl⟩
  · rw [List.append_nil]
    exact hi.exit result
  · obtain ⟨hsw, hsc⟩ := writeStep_ok hs'
    rw [List.append_nil] at hsw
    refine hi.advance (setStream_sent hsc) rfl hb hq
      (by simp [Action.conn]) ?_ (fun _ _ _ _ => trivial) rfl ?_
    · exact (hd.sent stream.sent).replied (by rw [hsw]; exact he)
    · rw [List.countP_append]
      exact hi.counted
  · obtain ⟨hsw, hsc⟩ := writeStep_ok hs'
    refine hi.advance (setStream_sent hsc) rfl hb hq (by simp) ?_
      (fun h seen hh' hseen => ?_) rfl ?_
    · rw [List.append_nil]
      exact (hd.sent stream.sent).conversation
    · refine ⟨hnil, received, reply, ?_, ?_⟩
      · rw [hh', hseen, List.append_nil]
        exact hd.sent stream.sent
      · rw [hseen, hsw]
        exact he
    · rw [List.append_nil]
      exact hi.counted

theorem inv_stepMain {log out : List Action} {s t : Ingress} {event : MainEvent}
    (hi : Inv d log s) (hs : stepMain d s event = some (t, out)) : Inv d (log ++ out) t := by
  unfold stepMain at hs
  split at hs
  · next stop hp =>
    obtain ⟨rfl, rfl⟩ := Prod.mk.inj (Option.some.inj hs)
    rw [List.append_nil]
    cases stop <;> exact hi.move rfl rfl rfl trivial
  · next k hp =>
    obtain ⟨rfl, rfl⟩ := Prod.mk.inj (Option.some.inj hs)
    exact inv_stepScan hi
  · next k e hp =>
    split_ifs at hs
    obtain ⟨rfl, rfl⟩ := Prod.mk.inj (Option.some.inj hs)
    rw [List.append_nil]
    exact hi.exit _
  · next hp =>
    obtain ⟨rfl, rfl⟩ := Prod.mk.inj (Option.some.inj hs)
    rw [List.append_nil]
    exact hi.move rfl rfl rfl trivial
  · next c authority available hp =>
    have hserves := hi.serves
    rw [hp] at hserves
    obtain ⟨hh, hcons, hsent, ha⟩ := hserves
    split_ifs at hs
    · obtain ⟨rfl, rfl⟩ := Prod.mk.inj (Option.some.inj hs)
      rw [List.append_nil]
      exact hi.move rfl rfl rfl ⟨hh, hcons, hsent, ⟨ha, rfl⟩, within_nil limit⟩
    · obtain ⟨rfl, rfl⟩ := Prod.mk.inj (Option.some.inj hs)
      rw [List.append_nil]
      exact hi.exit _
  · next c ingress got event hp =>
    obtain ⟨u, hu, he⟩ := Option.map_eq_some_iff.mp hs
    obtain ⟨rfl, rfl⟩ := Prod.mk.inj he
    rw [List.append_nil]
    exact inv_stepReadRequest hi hp hu
  · next c ingress received now hp =>
    obtain ⟨rfl, rfl⟩ := Prod.mk.inj (Option.some.inj hs)
    rw [List.append_nil]
    exact inv_stepStamp hi hp
  · next hp =>
    obtain ⟨rfl, rfl⟩ := Prod.mk.inj (Option.some.inj hs)
    rw [List.append_nil]
    exact hi.exit _
  · next c received image hp =>
    obtain ⟨u, hu, he⟩ := Option.map_eq_some_iff.mp hs
    obtain ⟨rfl, rfl⟩ := Prod.mk.inj he
    rw [List.append_nil]
    exact inv_stepConnect hi hp hu
  · next c received rest event hp => exact inv_stepSubmit hi hp hs
  · next c received got event hp => exact inv_stepAwait hi hp hs
  · next c rest event hp => exact inv_stepReply hi hp hs
  · next outcome hp =>
    obtain ⟨rfl, rfl⟩ := Prod.mk.inj (Option.some.inj hs)
    obtain ⟨result, ht⟩ := stopRoot_exit s outcome
    rw [List.append_nil, ht]
    exact hi.exit result
  · cases hs

/-- A step of a client other than its connecting moves bytes it owns. -/
theorem Inv.peer {log : List Action} {s : Ingress} {c : ConnId} {stream : Duplex}
    (hi : Inv d log s) (hc : stream.consumed = (s.connections c).stream.consumed)
    (hs : stream.sent = (s.connections c).stream.sent) : Inv d log (s.setStream c stream) :=
  hi.move (seen_setStream s c hc hs) rfl rfl hi.serves

theorem Serves.known {h : ConnId → List Action} {seen : ConnId → Seen} {router : Duplex}
    {phase : MainPhase} {c : ConnId} (hs : Serves d h seen router phase)
    (hc : phase.current = some c) : h c ≠ [] := by
  cases phase <;> simp only [MainPhase.current, Option.some.injEq, reduceCtorEq] at hc
  case replying =>
    subst hc
    obtain ⟨_, received, reply, hd, _⟩ := hs
    obtain ⟨more, hh⟩ := hd.listed
    simp [hh, opened]
  case awaiting =>
    subst hc
    obtain ⟨_, _, _, image, wire, hh, _⟩ := hs
    simp [hh, opened]
  all_goals
    subst hc
    simp [hs.1, opened]

/-- The phase speaks about the connection being served only. -/
theorem Serves.congr {h h' : ConnId → List Action} {seen seen' : ConnId → Seen}
    {router : Duplex} {phase : MainPhase} (hs : Serves d h seen router phase)
    (hc : ∀ c, phase.current = some c → h' c = h c ∧ seen' c = seen c) :
    Serves d h' seen' router phase := by
  cases phase with
  | polling | scanning | sleeping | stopping | exited => trivial
  | opening c | reading c | forwarding c | connecting c | submitting c | awaiting c | replying c =>
    obtain ⟨hh, hseen⟩ := hc c rfl
    simp only [Serves, hh, hseen] at hs ⊢
    exact hs

/-- A new connection has no history, so it can only be queued. -/
theorem inv_connect {log : List Action} {s : Ingress} {listener : ℕ} {peer : PeerCredentials}
    (hi : Inv d log s) :
    Inv d (log ++ [Action.connected s.opened listener peer])
      (({ s with opened := s.opened+1 } : Ingress).setConnection s.opened
        ⟨listener, peer, .fresh, true⟩) := by
  have hfresh := hi.unopened s.opened le_rfl
  have hself : history s.opened (log ++ [Action.connected s.opened listener peer]) =
      [.connected s.opened listener peer] := by
    rw [history_append, hfresh, List.nil_append]
    exact history_self (by simp [Action.conn])
  have hother : ∀ c, c ≠ s.opened →
      history c (log ++ [Action.connected s.opened listener peer]) = history c log := by
    intro c hc
    have ho : ∀ a ∈ [Action.connected s.opened listener peer], a.conn = s.opened := by
      simp [Action.conn]
    rw [history_append, history_other ho hc, List.append_nil]
  refine ⟨?_, ?_, ?_, ?_, hi.owner, ?_⟩
  · intro c
    rw [seen_setConnection]
    by_cases hc : c = s.opened
    · subst hc
      rw [Function.update_self, hself]
      exact .connected
    · rw [Function.update_of_ne hc, hother c hc]
      exact hi.conversation c
  · intro c hq
    rw [seen_setConnection] at hq ⊢
    by_cases hc : c = s.opened
    · subst hc
      rw [Function.update_self, hself]
      exact ⟨rfl, rfl, rfl⟩
    · rw [Function.update_of_ne hc] at hq ⊢
      rw [hother c hc]
      exact hi.queued c hq
  · intro c hc
    have hb : s.opened+1 ≤ c := hc
    rw [hother c (by omega)]
    exact hi.unopened c (by omega)
  · refine hi.serves.congr fun c hc => ?_
    have hne : c ≠ s.opened := by
      rintro rfl
      exact hi.serves.known hc hfresh
    rw [seen_setConnection, Function.update_of_ne hne]
    exact ⟨hother c hne, rfl⟩
  · rw [List.countP_append]
    exact hi.counted

theorem inv_stepClient {log out : List Action} {s t : Ingress} {event : ClientEvent}
    (hi : Inv d log s) (hs : stepClient d s event = some (t, out)) : Inv d (log ++ out) t := by
  rcases stepClient_cases hs with ⟨listener, peer, _, rfl, rfl⟩ | ⟨c, stream, hc, hsent, rfl, rfl⟩
  · exact inv_connect hi
  · rw [List.append_nil]
    exact hi.peer hc hsent

/-- The router's steps leave what the daemon wrote to it and read from it as they were. -/
theorem Serves.router {h : ConnId → List Action} {seen : ConnId → Seen} {router router' : Duplex}
    {phase : MainPhase} (hs : Serves d h seen router phase)
    (hc : router'.consumed = router.consumed) (hw : router'.sent = router.sent) :
    Serves d h seen router' phase := by
  cases phase with
  | submitting | awaiting =>
    simp only [Serves, hc, hw] at hs ⊢
    exact hs
  | _ => exact hs

theorem inv_stepRouter {log : List Action} {s : Ingress} {event : RouterEvent}
    (hi : Inv d log s) : Inv d log (stepRouter s event) := by
  cases event with
  | listen listener => exact hi.move rfl rfl rfl hi.serves
  | write bytes => exact hi.move rfl rfl rfl (hi.serves.router rfl rfl)
  | read count => exact hi.move rfl rfl rfl (hi.serves.router rfl rfl)
  | close => exact hi.move rfl rfl rfl (hi.serves.router rfl rfl)

theorem inv_step {log out : List Action} {s t : Ingress} {event : Event} (hi : Inv d log s)
    (hs : step d s event = some (t, out)) : Inv d (log ++ out) t := by
  unfold step at hs
  split_ifs at hs
  cases event with
  | main event => exact inv_stepMain hi hs
  | client event => exact inv_stepClient hi hs
  | router event =>
    obtain ⟨rfl, rfl⟩ := Prod.mk.inj (Option.some.inj hs)
    rw [List.append_nil]
    exact inv_stepRouter hi

def Action.isConnected : Action → Bool
  | .connected _ _ _ => true
  | _ => false

/-- A connection is made once, and before anything else happens to it. -/
theorem Inv.connected {log : List Action} {s : Ingress} (hi : Inv d log s) (c : ConnId) :
    (history c log).countP Action.isConnected ≤ 1 ∧
      (history c log ≠ [] → 0 < (history c log).countP Action.isConnected) := by
  have hc := hi.conversation c
  generalize history c log = entries at hc
  cases hc <;> simp [opened, List.countP_cons, Action.isConnected]

theorem inv_initial (routerListener : RouterListener) : Inv d [] (initial d routerListener) :=
  ⟨fun _ => .absent, nofun, fun _ _ => rfl, trivial, rfl, rfl⟩

/-- The invariant holds at the end of every run. -/
theorem inv_run {routerListener : RouterListener} {events : List Event} {log : List Action}
    {s : Ingress} (hr : (machine d).run (initial d routerListener) events = some (s, log)) :
    Inv d log s :=
  Machine.run_invariant (fun hi hs => inv_step hi hs) (inv_initial routerListener) hr

end PersonaMessage.IngressMachine
