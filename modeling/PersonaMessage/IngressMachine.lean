import PersonaMessage.Transitions
import PersonaMessage.DaemonConnection
import PersonaMessage.DaemonBinding

/-! The main thread of `MessageDaemon::run` from its accept loop to its return, one system
call at a time, between any number of clients and the router. The state of a blocking call
is what is left of it; what a peer does is an input. -/
namespace PersonaMessage.IngressMachine
open ByteStream SignalFrames FrameProgress RouterCodec SignalRouterFrameCodec DaemonStamping
  DaemonConnection DaemonBinding Transitions

abbrev ConnId := ℕ

/-- What the run is given: the configured ingresses in order, the linked library and the
size of a socket buffer. -/
structure Deployment where
  lib : MessageLibrary
  ownerIdentity : OwnerIdentity
  componentIngresses : List InternalComponentInstanceOrigin
  capacity : ℕ

/-- The authorities of `bind_listeners`, in the order in which `accept_one` scans them. -/
def Deployment.bindings (d : Deployment) : List MessageIngressAuthority :=
  .externalPeer :: d.componentIngresses.map .internalComponentInstance

/-- The deployment in which a configured daemon runs. -/
def Deployment.fromConfiguration (lib : MessageLibrary) (capacity : ℕ)
    (configuration : MessageDaemonConfiguration) : Deployment :=
  { lib := lib
    ownerIdentity := configuration.ownerIdentity
    componentIngresses := configuration.componentIngresses.map ComponentMessageIngress.origin
    capacity := capacity }

/-- The authorities scanned are those of the bindings that startup leaves behind. -/
theorem Deployment.bindings_start {lib : MessageLibrary} {capacity : ℕ}
    {configuration : MessageDaemonConfiguration} {faults : ℕ → Option BindFault}
    {nonblocking : Option IoError} {spawning : Option BindFault} {host host' : Host}
    {started : Started}
    (h : (MessageDaemon.fromConfiguration configuration).start faults nonblocking spawning host =
      (host', .ok started)) :
    (Deployment.fromConfiguration lib capacity configuration).bindings =
      started.bindings.map MessageSocketBinding.authority := by
  rw [start_authorities h]
  simp [Deployment.bindings, Deployment.fromConfiguration]

/-- A client's connection. Bytes that the daemon's `BufReader` took beyond the frame are
never looked at, so they stay among the pending ones. -/
structure Connection where
  listener : ℕ
  peer : PeerCredentials
  stream : Duplex
  queued : Bool

inductive RouterListener
  | absent (error : IoError)
  | ready
  | full
  deriving DecidableEq

inductive ActorStateAbsence
  | dropped
  | other (tag : ℕ)
  deriving DecidableEq

inductive ActorTerminalReason
  | stopped
  | other (tag : ℕ)
  deriving DecidableEq

/-- The text is what the actor library's `Debug` prints. -/
structure ActorTerminalOutcome where
  state : ActorStateAbsence
  reason : ActorTerminalReason
  printed : String
  deriving DecidableEq

def assertStoppedOutcome (outcome : ActorTerminalOutcome) : Result Unit :=
  if outcome.state ≠ .dropped ∨ outcome.reason ≠ .stopped then
    .error (.actor "stop message daemon root" outcome.printed)
  else .ok ()

inductive MainPhase
  | polling
  | scanning (listener : ℕ)
  | sleeping
  | opening (c : ConnId) (authority : MessageIngressAuthority)
  | reading (c : ConnId) (ingress : MessageIngressContext) (got : Bytes)
  | forwarding (c : ConnId) (ingress : MessageIngressContext) (received : ReceivedMessageRequest)
  | connecting (c : ConnId) (received : ReceivedMessageRequest) (image : MessageRequest)
  | submitting (c : ConnId) (received : ReceivedMessageRequest) (rest : Bytes)
  | awaiting (c : ConnId) (received : ReceivedMessageRequest) (got : Bytes)
  | replying (c : ConnId) (rest : Bytes)
  | stopping
  | exited (result : Result Unit)

structure Ingress where
  root : MessageDaemonRoot
  connections : ConnId → Connection
  opened : ℕ
  routerListener : RouterListener
  routerStream : Duplex
  phase : MainPhase

/-- One step of the main thread, with what the kernel, the clock or an actor returns. -/
inductive MainEvent
  | poll (stop : Bool)
  | accept
  | acceptFailed (error : IoError)
  | wake
  | credentials (available : Bool)
  | read (event : ReadEvent)
  | stamp (now : ℤ)
  | askFailed (detail : String)
  | connect
  | write (event : WriteEvent)
  | stopRoot (outcome : Except String ActorTerminalOutcome)
  deriving DecidableEq

inductive ClientEvent
  | connect (listener : ℕ) (peer : PeerCredentials)
  | write (c : ConnId) (bytes : Bytes)
  | read (c : ConnId) (count : ℕ)
  | close (c : ConnId)
  deriving DecidableEq

inductive RouterEvent
  | listen (listener : RouterListener)
  | write (bytes : Bytes)
  | read (count : ℕ)
  | close
  deriving DecidableEq

inductive Event
  | main (event : MainEvent)
  | client (event : ClientEvent)
  | router (event : RouterEvent)
  deriving DecidableEq

/-- A frame is forwarded or replied with the last of its bytes. A submission is answered by
the bytes in which the codec finds an `Ok` reply to it. -/
inductive Action
  | connected (c : ConnId) (listener : ℕ) (peer : PeerCredentials)
  | accepted (c : ConnId)
  | forwarded (c : ConnId) (wire : Bytes)
  | answered (c : ConnId) (answer : Bytes)
  | replied (c : ConnId) (wire : Bytes)
  deriving DecidableEq

def Action.conn : Action → ConnId
  | .connected c _ _ => c
  | .accepted c => c
  | .forwarded c _ => c
  | .answered c _ => c
  | .replied c _ => c

namespace Ingress

def exit (s : Ingress) (result : Result Unit) : Ingress := { s with phase := .exited result }

def setConnection (s : Ingress) (c : ConnId) (conn : Connection) : Ingress :=
  { s with connections := Function.update s.connections c conn }

def setStream (s : Ingress) (c : ConnId) (stream : Duplex) : Ingress :=
  s.setConnection c { s.connections c with stream }

/-- The connection at the head of a listener's backlog. -/
def waiting (s : Ingress) (listener : ℕ) : Option ConnId :=
  (List.range s.opened).find? fun c =>
    (s.connections c).queued && (s.connections c).listener == listener

/-- `write_reply` up to its first `write` call. -/
def startReply (d : Deployment) (s : Ingress) (c : ConnId) (received : ReceivedMessageRequest)
    (reply : MessageReply) : Ingress :=
  match writeReply d.lib received reply with
  | .error e => s.exit (.error e)
  | .ok bytes => { s with phase := .replying c bytes }

end Ingress

def limit : ℕ := SignalRouterFrameCodec.default.maximumFrameBytes

variable (d : Deployment)

/-- `accept_one` at one of its listeners. -/
def stepScan (s : Ingress) (k : ℕ) : Ingress × List Action :=
  match d.bindings[k]? with
  | none => ({ s with phase := .sleeping }, [])
  | some authority =>
    match s.waiting k with
    | none => ({ s with phase := .scanning (k+1) }, [])
    | some c => (({ s with phase := .opening c authority } : Ingress).setConnection c
        { s.connections c with queued := false }, [.accepted c])

def stepReadRequest (s : Ingress) (c : ConnId) (ingress : MessageIngressContext)
    (got : Bytes) (event : ReadEvent) : Option Ingress :=
  match readStep d.lib limit (s.connections c).stream got event with
  | none => none
  | some (.more stream got) =>
    some (({ s with phase := .reading c ingress got } : Ingress).setStream c stream)
  | some (.done (.error fault)) => some (s.exit (.error (frameError fault)))
  | some (.done (.ok frame)) =>
    match requestFromFrame d.lib frame with
    | .error e => some (s.exit (.error e))
    | .ok received => some { s with phase := .forwarding c ingress received }

def stepStamp (s : Ingress) (c : ConnId) (ingress : MessageIngressContext)
    (received : ReceivedMessageRequest) (now : ℤ) : Ingress :=
  match s.root.stampRequest received.request ingress now with
  | .error e => s.exit (.error e)
  | .ok (.forward image) => { s with phase := .connecting c received image }
  | .ok (.reply reply) => s.startReply d c received reply

def stepConnect (s : Ingress) (c : ConnId) (received : ReceivedMessageRequest)
    (image : MessageRequest) : Option Ingress :=
  match s.routerListener with
  | .absent e => some (s.exit (.error (.io e)))
  | .full => none
  | .ready =>
    match writeFrame d.lib (requestFrameWithExchange d.lib connectorExchange image) with
    | .error e => some (s.exit (.error e))
    | .ok bytes => some { s with routerStream := .fresh, phase := .submitting c received bytes }

def stepSubmit (s : Ingress) (c : ConnId) (received : ReceivedMessageRequest) (rest : Bytes)
    (event : WriteEvent) : Option (Ingress × List Action) :=
  match writeStep d.capacity s.routerStream rest event with
  | none => none
  | some (.error e) => some (s.exit (.error (.io e)), [])
  | some (.ok (stream, [])) =>
    some ({ s with routerStream := stream, phase := .awaiting c received [] },
      [.forwarded c stream.sent])
  | some (.ok (stream, rest)) =>
    some ({ s with routerStream := stream, phase := .submitting c received rest }, [])

def stepAwait (s : Ingress) (c : ConnId) (received : ReceivedMessageRequest) (got : Bytes)
    (event : ReadEvent) : Option (Ingress × List Action) :=
  match readStep d.lib limit s.routerStream got event with
  | none => none
  | some (.more stream got) =>
    some ({ s with routerStream := stream, phase := .awaiting c received got }, [])
  | some (.done (.error fault)) => some (s.exit (.error (frameError fault)), [])
  | some (.done (.ok frame)) =>
    match replyFromFrameForExchange d.lib frame connectorExchange with
    | .error e => some (s.exit (.error e), [])
    | .ok reply =>
      some (({ s with root := s.root.countForward } : Ingress).startReply d c received reply,
        [.answered c got])

def stepReply (s : Ingress) (c : ConnId) (rest : Bytes) (event : WriteEvent) :
    Option (Ingress × List Action) :=
  match writeStep d.capacity (s.connections c).stream rest event with
  | none => none
  | some (.error e) => some (s.exit (.error (.io e)), [])
  | some (.ok (stream, [])) =>
    some (({ s with phase := .polling } : Ingress).setStream c stream, [.replied c stream.sent])
  | some (.ok (stream, rest)) =>
    some (({ s with phase := .replying c rest } : Ingress).setStream c stream, [])

def stopRoot (s : Ingress) (outcome : Except String ActorTerminalOutcome) : Ingress :=
  match outcome with
  | .error detail => s.exit (.error (.actor "stop message daemon root" detail))
  | .ok outcome => s.exit (assertStoppedOutcome outcome)

def stepMain (s : Ingress) (event : MainEvent) : Option (Ingress × List Action) :=
  match s.phase, event with
  | .polling, .poll stop =>
    some ({ s with phase := if stop then .stopping else .scanning 0 }, [])
  | .scanning k, .accept => some (stepScan d s k)
  | .scanning k, .acceptFailed e =>
    if k < d.bindings.length ∧ e ≠ .wouldBlock then some (s.exit (.error (.io e)), []) else none
  | .sleeping, .wake => some ({ s with phase := .polling }, [])
  | .opening c authority, .credentials available =>
    if available then
      some ({ s with phase := .reading c ⟨authority, (s.connections c).peer⟩ [] }, [])
    else some (s.exit (.error .peerCredentials), [])
  | .reading c ingress got, .read event =>
    (stepReadRequest d s c ingress got event).map (·, [])
  | .forwarding c ingress received, .stamp now => some (stepStamp d s c ingress received now, [])
  | .forwarding _ _ _, .askFailed detail =>
    some (s.exit (.error (.actor "forward message request" detail)), [])
  | .connecting c received image, .connect => (stepConnect d s c received image).map (·, [])
  | .submitting c received rest, .write event => stepSubmit d s c received rest event
  | .awaiting c received got, .read event => stepAwait d s c received got event
  | .replying c rest, .write event => stepReply d s c rest event
  | .stopping, .stopRoot outcome => some (stopRoot s outcome, [])
  | _, _ => none

def stepClient (s : Ingress) (event : ClientEvent) : Option (Ingress × List Action) :=
  match event with
  | .connect listener peer =>
    if listener < d.bindings.length then
      some (({ s with opened := s.opened+1 } : Ingress).setConnection s.opened
        ⟨listener, peer, .fresh, true⟩, [.connected s.opened listener peer])
    else none
  | .write c bytes =>
    if c < s.opened then some (s.setStream c ((s.connections c).stream.peerWrite bytes), [])
    else none
  | .read c count =>
    if c < s.opened then some (s.setStream c ((s.connections c).stream.peerRead count), [])
    else none
  | .close c =>
    if c < s.opened then some (s.setStream c (s.connections c).stream.peerClose, []) else none

def stepRouter (s : Ingress) (event : RouterEvent) : Ingress :=
  match event with
  | .listen listener => { s with routerListener := listener }
  | .write bytes => { s with routerStream := s.routerStream.peerWrite bytes }
  | .read count => { s with routerStream := s.routerStream.peerRead count }
  | .close => { s with routerStream := s.routerStream.peerClose }

def MainPhase.isExited : MainPhase → Bool
  | .exited _ => true
  | _ => false

/-- Nothing happens to the process after `run` has returned. -/
def step (s : Ingress) (event : Event) : Option (Ingress × List Action) :=
  if s.phase.isExited then none
  else match event with
    | .main event => stepMain d s event
    | .client event => stepClient d s event
    | .router event => some (stepRouter s event, [])

def machine : Machine Ingress Event Action := ⟨step d⟩

/-- The state in which the accept loop starts; no client has connected yet. -/
def initial (routerListener : RouterListener) : Ingress :=
  ⟨.new d.ownerIdentity, fun _ => ⟨0, ⟨⟨0⟩⟩, .fresh, false⟩, 0, routerListener, .fresh, .polling⟩

section Cases
variable {d : Deployment} {s t : Ingress} {out : List Action} {c : ConnId}
  {received : ReceivedMessageRequest}

/-! What a step can do, by the function that takes it. -/

theorem startReply_cases (s : Ingress) (c : ConnId) (received : ReceivedMessageRequest)
    (reply : MessageReply) :
    (∃ result, s.startReply d c received reply = s.exit result) ∨
      ∃ bytes, writeReply d.lib received reply = .ok bytes ∧
        s.startReply d c received reply = { s with phase := .replying c bytes } := by
  unfold Ingress.startReply
  split
  · exact Or.inl ⟨_, rfl⟩
  · next bytes he => exact Or.inr ⟨bytes, he, rfl⟩

theorem stepReadRequest_cases {ingress : MessageIngressContext} {got : Bytes} {event : ReadEvent}
    (hs : stepReadRequest d s c ingress got event = some t) :
    (∃ result, t = s.exit result) ∨
      (∃ stream got', readStep d.lib limit (s.connections c).stream got event =
          some (.more stream got') ∧
        t = ({ s with phase := .reading c ingress got' } : Ingress).setStream c stream) ∨
      ∃ frame received, readStep d.lib limit (s.connections c).stream got event =
          some (.done (.ok frame)) ∧ requestFromFrame d.lib frame = .ok received ∧
        t = { s with phase := .forwarding c ingress received } := by
  unfold stepReadRequest at hs
  split at hs
  · cases hs
  · next stream got' hr => exact Or.inr (Or.inl ⟨stream, got', hr, (Option.some.inj hs).symm⟩)
  · exact Or.inl ⟨_, (Option.some.inj hs).symm⟩
  · next frame hr =>
    split at hs
    · exact Or.inl ⟨_, (Option.some.inj hs).symm⟩
    · next received ha =>
      exact Or.inr (Or.inr ⟨frame, received, hr, ha, (Option.some.inj hs).symm⟩)

theorem stepStamp_cases (s : Ingress) (c : ConnId) (ingress : MessageIngressContext)
    (received : ReceivedMessageRequest) (now : ℤ) :
    (∃ result, stepStamp d s c ingress received now = s.exit result) ∨
      (∃ image, s.root.stampRequest received.request ingress now = .ok (.forward image) ∧
        stepStamp d s c ingress received now =
          { s with phase := .connecting c received image }) ∨
      ∃ reply, s.root.stampRequest received.request ingress now = .ok (.reply reply) ∧
        stepStamp d s c ingress received now = s.startReply d c received reply := by
  unfold stepStamp
  split
  · exact Or.inl ⟨_, rfl⟩
  · next image hd => exact Or.inr (Or.inl ⟨image, hd, rfl⟩)
  · next reply hd => exact Or.inr (Or.inr ⟨reply, hd, rfl⟩)

theorem stepConnect_cases {image : MessageRequest}
    (hs : stepConnect d s c received image = some t) :
    (∃ result, t = s.exit result) ∨
      ∃ bytes, s.routerListener = .ready ∧
        writeFrame d.lib (requestFrameWithExchange d.lib connectorExchange image) = .ok bytes ∧
        t = { s with routerStream := .fresh, phase := .submitting c received bytes } := by
  unfold stepConnect at hs
  split at hs
  · exact Or.inl ⟨_, (Option.some.inj hs).symm⟩
  · cases hs
  · next hready =>
    split at hs
    · exact Or.inl ⟨_, (Option.some.inj hs).symm⟩
    · next bytes he => exact Or.inr ⟨bytes, hready, he, (Option.some.inj hs).symm⟩

theorem stepSubmit_cases {rest : Bytes} {event : WriteEvent}
    (hs : stepSubmit d s c received rest event = some (t, out)) :
    (∃ result, t = s.exit result ∧ out = []) ∨
      (∃ stream, writeStep d.capacity s.routerStream rest event = some (.ok (stream, [])) ∧
        t = { s with routerStream := stream, phase := .awaiting c received [] } ∧
        out = [.forwarded c stream.sent]) ∨
      ∃ stream rest', writeStep d.capacity s.routerStream rest event = some (.ok (stream, rest')) ∧
        rest' ≠ [] ∧ t = { s with routerStream := stream, phase := .submitting c received rest' } ∧
        out = [] := by
  unfold stepSubmit at hs
  split at hs
  · cases hs
  all_goals obtain ⟨rfl, rfl⟩ := Prod.mk.inj (Option.some.inj hs)
  · exact Or.inl ⟨_, rfl, rfl⟩
  · next stream hw => exact Or.inr (Or.inl ⟨stream, hw, rfl, rfl⟩)
  · next stream rest' hne hw => exact Or.inr (Or.inr ⟨stream, rest', hw, hne, rfl, rfl⟩)

theorem stepAwait_cases {got : Bytes} {event : ReadEvent}
    (hs : stepAwait d s c received got event = some (t, out)) :
    (∃ result, t = s.exit result ∧ out = []) ∨
      (∃ stream got', readStep d.lib limit s.routerStream got event =
          some (.more stream got') ∧
        t = { s with routerStream := stream, phase := .awaiting c received got' } ∧ out = []) ∨
      ∃ frame reply, readStep d.lib limit s.routerStream got event = some (.done (.ok frame)) ∧
        replyFromFrameForExchange d.lib frame connectorExchange = .ok reply ∧
        t = ({ s with root := s.root.countForward } : Ingress).startReply d c received reply ∧
        out = [.answered c got] := by
  unfold stepAwait at hs
  split at hs
  · cases hs
  · next stream got' hr =>
    obtain ⟨rfl, rfl⟩ := Prod.mk.inj (Option.some.inj hs)
    exact Or.inr (Or.inl ⟨stream, got', hr, rfl, rfl⟩)
  · obtain ⟨rfl, rfl⟩ := Prod.mk.inj (Option.some.inj hs)
    exact Or.inl ⟨_, rfl, rfl⟩
  · next frame hr =>
    split at hs
    · obtain ⟨rfl, rfl⟩ := Prod.mk.inj (Option.some.inj hs)
      exact Or.inl ⟨_, rfl, rfl⟩
    · next reply ha =>
      obtain ⟨rfl, rfl⟩ := Prod.mk.inj (Option.some.inj hs)
      exact Or.inr (Or.inr ⟨frame, reply, hr, ha, rfl, rfl⟩)

theorem stepReply_cases {rest : Bytes} {event : WriteEvent}
    (hs : stepReply d s c rest event = some (t, out)) :
    (∃ result, t = s.exit result ∧ out = []) ∨
      (∃ stream, writeStep d.capacity (s.connections c).stream rest event =
          some (.ok (stream, [])) ∧
        t = ({ s with phase := .polling } : Ingress).setStream c stream ∧
        out = [.replied c stream.sent]) ∨
      ∃ stream rest', writeStep d.capacity (s.connections c).stream rest event =
          some (.ok (stream, rest')) ∧ rest' ≠ [] ∧
        t = ({ s with phase := .replying c rest' } : Ingress).setStream c stream ∧ out = [] := by
  unfold stepReply at hs
  split at hs
  · cases hs
  all_goals obtain ⟨rfl, rfl⟩ := Prod.mk.inj (Option.some.inj hs)
  · exact Or.inl ⟨_, rfl, rfl⟩
  · next stream hw => exact Or.inr (Or.inl ⟨stream, hw, rfl, rfl⟩)
  · next stream rest' hne hw => exact Or.inr (Or.inr ⟨stream, rest', hw, hne, rfl, rfl⟩)

theorem stopRoot_exit (s : Ingress) (outcome : Except String ActorTerminalOutcome) :
    ∃ result, stopRoot s outcome = s.exit result := by
  cases outcome <;> exact ⟨_, rfl⟩

/-- A client connects, or moves bytes that are its own. -/
theorem stepClient_cases {event : ClientEvent} (hs : stepClient d s event = some (t, out)) :
    (∃ listener peer, listener < d.bindings.length ∧
        t = ({ s with opened := s.opened+1 } : Ingress).setConnection s.opened
          ⟨listener, peer, .fresh, true⟩ ∧
        out = [.connected s.opened listener peer]) ∨
      ∃ c stream, stream.consumed = (s.connections c).stream.consumed ∧
        stream.sent = (s.connections c).stream.sent ∧ t = s.setStream c stream ∧ out = [] := by
  cases event with
  | connect listener peer =>
    simp only [stepClient] at hs
    split_ifs at hs with hl
    obtain ⟨rfl, rfl⟩ := Prod.mk.inj (Option.some.inj hs)
    exact Or.inl ⟨listener, peer, hl, rfl, rfl⟩
  | write c bytes =>
    simp only [stepClient] at hs
    split_ifs at hs
    obtain ⟨rfl, rfl⟩ := Prod.mk.inj (Option.some.inj hs)
    exact Or.inr ⟨c, (s.connections c).stream.peerWrite bytes, rfl, rfl, rfl, rfl⟩
  | read c count =>
    simp only [stepClient] at hs
    split_ifs at hs
    obtain ⟨rfl, rfl⟩ := Prod.mk.inj (Option.some.inj hs)
    exact Or.inr ⟨c, (s.connections c).stream.peerRead count, rfl, rfl, rfl, rfl⟩
  | close c =>
    simp only [stepClient] at hs
    split_ifs at hs
    obtain ⟨rfl, rfl⟩ := Prod.mk.inj (Option.some.inj hs)
    exact Or.inr ⟨c, (s.connections c).stream.peerClose, rfl, rfl, rfl, rfl⟩

end Cases

end PersonaMessage.IngressMachine
