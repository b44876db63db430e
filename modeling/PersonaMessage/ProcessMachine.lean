import PersonaMessage.IngressInvariant
import PersonaMessage.Supervision

/-! The whole process: the main thread, the supervision thread and the flag they share. The
supervision thread's handle is never joined, so once `run` has returned neither of them
makes a step. -/
namespace PersonaMessage.ProcessMachine
open ByteStream SignalFrames FrameProgress DaemonStamping Transitions IngressMachine Supervision
  SupervisionFrameCodec

inductive ServerPhase
  | polling
  | accepting
  | sleeping
  | reading (c : ConnId) (got : Bytes)
  | asking (c : ConnId) (received : ReceivedSupervisionRequest)
  | replying (c : ConnId) (reply : SupervisionReply) (rest : Bytes)
  | checking (c : ConnId)
  | finished
  deriving DecidableEq

structure SupervisionConnection where
  stream : Duplex
  queued : Bool

/-- The supervision thread with its actor, and the `AtomicBool` of the stop signal. -/
structure Supervisor where
  actor : SupervisionPhase
  connections : ConnId → SupervisionConnection
  opened : ℕ
  phase : ServerPhase
  stopRequested : Bool

inductive ServerEvent
  | poll
  | accept
  | acceptFailed (error : IoError)
  | wake
  | read (event : ReadEvent)
  | ask
  | askFailed
  | write (event : WriteEvent)
  | check
  deriving DecidableEq

inductive PeerEvent
  | connect
  | write (c : ConnId) (bytes : Bytes)
  | read (c : ConnId) (count : ℕ)
  | close (c : ConnId)
  deriving DecidableEq

inductive ProcessEvent
  | ingress (event : Event)
  | server (event : ServerEvent)
  | peer (event : PeerEvent)
  deriving DecidableEq

/-- A reply counts as written with the last of its bytes. -/
inductive ProcessAction
  | ingress (action : Action)
  | handled (c : ConnId) (request : SupervisionRequest)
  | replied (c : ConnId) (reply : SupervisionReply)
  deriving DecidableEq

namespace Supervisor

def setStream (v : Supervisor) (c : ConnId) (stream : Duplex) : Supervisor :=
  { v with connections := Function.update v.connections c { v.connections c with stream } }

def waiting (v : Supervisor) : Option ConnId :=
  (List.range v.opened).find? fun c => (v.connections c).queued

end Supervisor

variable (lib : SupervisionLibrary) (capacity : ℕ)

def stepAccept (v : Supervisor) : Supervisor :=
  match v.waiting with
  | none => { v with phase := .sleeping }
  | some c => { v with
      phase := .reading c []
      connections := Function.update v.connections c { v.connections c with queued := false } }

/-- A request that cannot be read ends its connection without an error. -/
def stepServerRead (v : Supervisor) (c : ConnId) (got : Bytes) (event : ReadEvent) :
    Option Supervisor :=
  match readStep lib server.maximumFrameBytes (v.connections c).stream got event with
  | none => none
  | some (.more stream got) =>
    some (({ v with phase := .reading c got } : Supervisor).setStream c stream)
  | some (.done (.error _)) => some { v with phase := .polling }
  | some (.done (.ok frame)) =>
    match requestFromFrame lib frame with
    | .error _ => some { v with phase := .polling }
    | .ok received => some { v with phase := .asking c received }

/-- The actor's handler runs, and the thread encodes what it returned. -/
def stepAsk (v : Supervisor) (c : ConnId) (received : ReceivedSupervisionRequest) : Supervisor :=
  let answer := v.actor.reply received.request
  { v with
    actor := answer.1
    stopRequested := v.stopRequested || answer.2.1
    phase := match writeReply lib received.exchange received.verb answer.2.2 with
      | .error _ => .polling
      | .ok bytes => .replying c answer.2.2 bytes }

def stepServerWrite (v : Supervisor) (c : ConnId) (reply : SupervisionReply) (rest : Bytes)
    (event : WriteEvent) : Option (Supervisor × List ProcessAction) :=
  match writeStep capacity (v.connections c).stream rest event with
  | none => none
  | some (.error _) => some ({ v with phase := .polling }, [])
  | some (.ok (stream, [])) =>
    some (({ v with phase := .checking c } : Supervisor).setStream c stream, [.replied c reply])
  | some (.ok (stream, rest)) =>
    some (({ v with phase := .replying c reply rest } : Supervisor).setStream c stream, [])

def stepServer (v : Supervisor) (event : ServerEvent) :
    Option (Supervisor × List ProcessAction) :=
  match v.phase, event with
  | .polling, .poll =>
    some ({ v with phase := if v.stopRequested then .finished else .accepting }, [])
  | .accepting, .accept => some (stepAccept v, [])
  | .accepting, .acceptFailed e =>
    if e ≠ .wouldBlock then some ({ v with phase := .polling }, []) else none
  | .sleeping, .wake => some ({ v with phase := .polling }, [])
  | .reading c got, .read event => (stepServerRead lib v c got event).map (·, [])
  | .asking c received, .ask => some (stepAsk lib v c received, [.handled c received.request])
  | .asking _ _, .askFailed => some ({ v with phase := .polling }, [])
  | .replying c reply rest, .write event => stepServerWrite capacity v c reply rest event
  | .checking c, .check =>
    some ({ v with phase := if v.stopRequested then .polling else .reading c [] }, [])
  | _, _ => none

def stepPeer (v : Supervisor) (event : PeerEvent) : Option Supervisor :=
  match event with
  | .connect => some { v with
      opened := v.opened+1
      connections := Function.update v.connections v.opened ⟨.fresh, true⟩ }
  | .write c bytes =>
    if c < v.opened then some (v.setStream c ((v.connections c).stream.peerWrite bytes)) else none
  | .read c count =>
    if c < v.opened then some (v.setStream c ((v.connections c).stream.peerRead count)) else none
  | .close c =>
    if c < v.opened then some (v.setStream c (v.connections c).stream.peerClose) else none

structure Process where
  ingress : Ingress
  supervisor : Supervisor

/-- The main thread polls the flag itself, whatever the event says it saw. -/
def admits (v : Supervisor) : Event → Bool
  | .main (.poll stop) => stop == v.stopRequested
  | _ => true

def step (d : Deployment) (p : Process) (event : ProcessEvent) :
    Option (Process × List ProcessAction) :=
  if p.ingress.phase.isExited then none
  else match event with
    | .ingress event =>
      if admits p.supervisor event then
        (IngressMachine.step d p.ingress event).map fun (ingress, out) =>
          ({ p with ingress }, out.map .ingress)
      else none
    | .server event =>
      (stepServer lib d.capacity p.supervisor event).map fun (supervisor, out) =>
        ({ p with supervisor }, out)
    | .peer event =>
      (stepPeer p.supervisor event).map fun supervisor => ({ p with supervisor }, [])

def machine (d : Deployment) : Machine Process ProcessEvent ProcessAction := ⟨step lib d⟩

/-- Both threads at the top of their loops, the flag not set. -/
def initial (d : Deployment) (routerListener : RouterListener) : Process :=
  ⟨IngressMachine.initial d routerListener,
    ⟨⟨.message, 0⟩, fun _ => ⟨.fresh, false⟩, 0, .polling, false⟩⟩

variable {lib} {capacity} {d : Deployment}

theorem run_step {p q : Process} {event : ProcessEvent} {out : List ProcessAction}
    (hs : step lib d p event = some (q, out)) :
    (machine lib d).run p [event] = some (q, out) := by
  simp [Machine.run, machine, hs]

/-- Every step of the process, by the part of it that moves. -/
theorem step_cases {p q : Process} {event : ProcessEvent} {out : List ProcessAction}
    (h : step lib d p event = some (q, out)) :
    p.ingress.phase.isExited = false ∧
    ((∃ e ingress actions, event = .ingress e ∧ admits p.supervisor e = true ∧
        IngressMachine.step d p.ingress e = some (ingress, actions) ∧
        q = { p with ingress } ∧ out = actions.map .ingress) ∨
      (∃ e supervisor, event = .server e ∧
        stepServer lib d.capacity p.supervisor e = some (supervisor, out) ∧
        q = { p with supervisor }) ∨
      ∃ e supervisor, event = .peer e ∧ stepPeer p.supervisor e = some supervisor ∧
        q = { p with supervisor } ∧ out = []) := by
  unfold step at h
  split_ifs at h with hx
  refine ⟨by simpa using hx, ?_⟩
  cases event with
  | ingress e =>
    dsimp only at h
    split_ifs at h with ha
    obtain ⟨⟨ingress, actions⟩, hs, he⟩ := Option.map_eq_some_iff.mp h
    obtain ⟨rfl, rfl⟩ := Prod.mk.inj he
    exact Or.inl ⟨e, ingress, actions, rfl, ha, hs, rfl, rfl⟩
  | server e =>
    obtain ⟨⟨supervisor, actions⟩, hs, he⟩ := Option.map_eq_some_iff.mp h
    obtain ⟨rfl, rfl⟩ := Prod.mk.inj he
    exact Or.inr (Or.inl ⟨e, supervisor, rfl, hs, rfl⟩)
  | peer e =>
    obtain ⟨supervisor, hs, he⟩ := Option.map_eq_some_iff.mp h
    obtain ⟨rfl, rfl⟩ := Prod.mk.inj he
    exact Or.inr (Or.inr ⟨e, supervisor, rfl, hs, rfl, rfl⟩)

theorem step_ingress (lib : SupervisionLibrary) {p : Process} {event : Event} {t : Ingress}
    {actions : List Action}
    (ha : admits p.supervisor event = true)
    (hs : IngressMachine.step d p.ingress event = some (t, actions)) :
    step lib d p (.ingress event) = some ({ p with ingress := t }, actions.map .ingress) := by
  have hx : p.ingress.phase.isExited = false := by
    by_contra hx
    have hx' : p.ingress.phase.isExited = true := by simpa using hx
    simp [IngressMachine.step, hx'] at hs
  simp [step, hx, ha, hs]

def ingressEvent : ProcessEvent → Option Event
  | .ingress event => some event
  | _ => none

def ingressAction : ProcessAction → Option Action
  | .ingress action => some action
  | _ => none

theorem filterMap_ingress (out : List Action) :
    (out.map ProcessAction.ingress).filterMap ingressAction = out := by
  induction out with
  | nil => rfl
  | cons a out ih => simpa [ingressAction] using ih

/-- What a step of the supervision thread can do, by the phase in which it is taken. -/
inductive ServerStep (lib : SupervisionLibrary) (capacity : ℕ) (v : Supervisor) :
    ServerEvent → Supervisor → List ProcessAction → Prop
  | poll (place : v.phase = .polling) :
      ServerStep lib capacity v .poll
        { v with phase := if v.stopRequested then .finished else .accepting } []
  | accept (place : v.phase = .accepting) : ServerStep lib capacity v .accept (stepAccept v) []
  | acceptFailed {e : IoError} (place : v.phase = .accepting) :
      ServerStep lib capacity v (.acceptFailed e) { v with phase := .polling } []
  | wake (place : v.phase = .sleeping) :
      ServerStep lib capacity v .wake { v with phase := .polling } []
  | readMore {c : ConnId} {got got' : Bytes} {event : ReadEvent} {stream : Duplex}
      (place : v.phase = .reading c got)
      (read : readStep lib server.maximumFrameBytes (v.connections c).stream got event =
        some (.more stream got')) :
      ServerStep lib capacity v (.read event)
        (({ v with phase := .reading c got' } : Supervisor).setStream c stream) []
  | readFailed {c : ConnId} {got : Bytes} {event : ReadEvent} {fault : FrameFault}
      (place : v.phase = .reading c got)
      (read : readStep lib server.maximumFrameBytes (v.connections c).stream got event =
        some (.done (.error fault))) :
      ServerStep lib capacity v (.read event) { v with phase := .polling } []
  | refused {c : ConnId} {got : Bytes} {event : ReadEvent} {frame : SupervisionFrame}
      {e : IoError} (place : v.phase = .reading c got)
      (read : readStep lib server.maximumFrameBytes (v.connections c).stream got event =
        some (.done (.ok frame)))
      (refused : requestFromFrame lib frame = .error e) :
      ServerStep lib capacity v (.read event) { v with phase := .polling } []
  | received {c : ConnId} {got : Bytes} {event : ReadEvent} {frame : SupervisionFrame}
      {received : ReceivedSupervisionRequest} (place : v.phase = .reading c got)
      (read : readStep lib server.maximumFrameBytes (v.connections c).stream got event =
        some (.done (.ok frame)))
      (request : requestFromFrame lib frame = .ok received) :
      ServerStep lib capacity v (.read event) { v with phase := .asking c received } []
  | ask {c : ConnId} {received : ReceivedSupervisionRequest}
      (place : v.phase = .asking c received) :
      ServerStep lib capacity v .ask (stepAsk lib v c received) [.handled c received.request]
  | askFailed {c : ConnId} {received : ReceivedSupervisionRequest}
      (place : v.phase = .asking c received) :
      ServerStep lib capacity v .askFailed { v with phase := .polling } []
  | writeFailed {c : ConnId} {reply : SupervisionReply} {rest : Bytes} {event : WriteEvent}
      {e : IoError} (place : v.phase = .replying c reply rest)
      (write : writeStep capacity (v.connections c).stream rest event = some (.error e)) :
      ServerStep lib capacity v (.write event) { v with phase := .polling } []
  | written {c : ConnId} {reply : SupervisionReply} {rest : Bytes} {event : WriteEvent}
      {stream : Duplex} (place : v.phase = .replying c reply rest)
      (write : writeStep capacity (v.connections c).stream rest event = some (.ok (stream, []))) :
      ServerStep lib capacity v (.write event)
        (({ v with phase := .checking c } : Supervisor).setStream c stream) [.replied c reply]
  | writeMore {c : ConnId} {reply : SupervisionReply} {rest rest' : Bytes} {event : WriteEvent}
      {stream : Duplex} (place : v.phase = .replying c reply rest) (left : rest' ≠ [])
      (write : writeStep capacity (v.connections c).stream rest event =
        some (.ok (stream, rest'))) :
      ServerStep lib capacity v (.write event)
        (({ v with phase := .replying c reply rest' } : Supervisor).setStream c stream) []
  | check {c : ConnId} (place : v.phase = .checking c) :
      ServerStep lib capacity v .check
        { v with phase := if v.stopRequested then .polling else .reading c [] } []

theorem stepServer_cases {v w : Supervisor} {event : ServerEvent} {out : List ProcessAction}
    (hs : stepServer lib capacity v event = some (w, out)) :
    ServerStep lib capacity v event w out := by
  unfold stepServer at hs
  split at hs
  · next hp =>
    obtain ⟨rfl, rfl⟩ := Prod.mk.inj (Option.some.inj hs)
    exact .poll hp
  · next hp =>
    obtain ⟨rfl, rfl⟩ := Prod.mk.inj (Option.some.inj hs)
    exact .accept hp
  · next e hp =>
    split_ifs at hs
    obtain ⟨rfl, rfl⟩ := Prod.mk.inj (Option.some.inj hs)
    exact .acceptFailed hp
  · next hp =>
    obtain ⟨rfl, rfl⟩ := Prod.mk.inj (Option.some.inj hs)
    exact .wake hp
  · next c got event hp =>
    obtain ⟨u, hu, he⟩ := Option.map_eq_some_iff.mp hs
    obtain ⟨rfl, rfl⟩ := Prod.mk.inj he
    unfold stepServerRead at hu
    split at hu
    · cases hu
    · next hr =>
      obtain rfl := Option.some.inj hu
      exact .readMore hp hr
    · next hr =>
      obtain rfl := Option.some.inj hu
      exact .readFailed hp hr
    · next hr =>
      split at hu
      · next hq =>
        obtain rfl := Option.some.inj hu
        exact .refused hp hr hq
      · next hq =>
        obtain rfl := Option.some.inj hu
        exact .received hp hr hq
  · next c received hp =>
    obtain ⟨rfl, rfl⟩ := Prod.mk.inj (Option.some.inj hs)
    exact .ask hp
  · next hp =>
    obtain ⟨rfl, rfl⟩ := Prod.mk.inj (Option.some.inj hs)
    exact .askFailed hp
  · next c reply rest event hp =>
    unfold stepServerWrite at hs
    split at hs
    · cases hs
    · next hw =>
      obtain ⟨rfl, rfl⟩ := Prod.mk.inj (Option.some.inj hs)
      exact .writeFailed hp hw
    · next hw =>
      obtain ⟨rfl, rfl⟩ := Prod.mk.inj (Option.some.inj hs)
      exact .written hp hw
    · next hne hw =>
      obtain ⟨rfl, rfl⟩ := Prod.mk.inj (Option.some.inj hs)
      exact .writeMore hp hne hw
  · next c hp =>
    obtain ⟨rfl, rfl⟩ := Prod.mk.inj (Option.some.inj hs)
    exact .check hp
  · cases hs

end PersonaMessage.ProcessMachine
