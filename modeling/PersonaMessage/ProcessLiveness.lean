import PersonaMessage.ProcessStop

/-! When a thread of the process can go on by itself. Both servers serve one connection to
its end inside the loop that looks at the flag, so what can hold up a stop is a blocking
call on a peer. -/
namespace PersonaMessage.ProcessMachine
open ByteStream SignalFrames FrameProgress RouterCodec DaemonStamping Transitions IngressMachine
  Supervision SupervisionFrameCodec TableLibrary

/-- The main thread is in a call that waits for a client or for the router. -/
def MainWaits (d : Deployment) (s : Ingress) : Prop :=
  match s.phase with
  | .reading c _ got => ReadWaits limit (s.connections c).stream got
  | .connecting _ _ _ => s.routerListener = .full
  | .submitting _ _ _ => s.routerStream.Full d.capacity
  | .awaiting _ _ got => ReadWaits limit s.routerStream got
  | .replying c _ => (s.connections c).stream.Full d.capacity
  | _ => False

/-- The supervision thread is in a call that waits for the peer it serves. -/
def ServerWaits (capacity : ℕ) (v : Supervisor) : Prop :=
  match v.phase with
  | .reading c got => ReadWaits server.maximumFrameBytes (v.connections c).stream got
  | .replying c _ _ => (v.connections c).stream.Full capacity
  | _ => False

variable {lib : SupervisionLibrary} {d : Deployment} {log : List ProcessAction} {p : Process}

theorem stepReadRequest_enabled {s : Ingress} {c : ConnId} {ingress : MessageIngressContext}
    {got : Bytes} {event : ReadEvent} :
    stepReadRequest d s c ingress got event ≠ none ↔
      readStep d.lib limit (s.connections c).stream got event ≠ none := by
  unfold stepReadRequest
  split
  · next h => simp [h]
  · next h => simp [h]
  · next h => simp [h]
  · next h =>
    split <;> simp [h]

theorem stepAwait_enabled {s : Ingress} {c : ConnId} {received : ReceivedMessageRequest}
    {got : Bytes} {event : ReadEvent} :
    stepAwait d s c received got event ≠ none ↔
      readStep d.lib limit s.routerStream got event ≠ none := by
  unfold stepAwait
  split
  · next h => simp [h]
  · next h => simp [h]
  · next h => simp [h]
  · next h =>
    split <;> simp [h]

theorem stepConnect_enabled {s : Ingress} {c : ConnId} {received : ReceivedMessageRequest}
    {image : MessageRequest} :
    stepConnect d s c received image ≠ none ↔ s.routerListener ≠ .full := by
  unfold stepConnect
  split
  · next h => simp [h]
  · next h => simp [h]
  · next h =>
    split <;> simp [h]

theorem stepSubmit_enabled {s : Ingress} {c : ConnId} {received : ReceivedMessageRequest}
    {rest : Bytes} {event : WriteEvent} :
    stepSubmit d s c received rest event ≠ none ↔
      writeStep d.capacity s.routerStream rest event ≠ none := by
  unfold stepSubmit
  split <;> next h => simp [h]

theorem stepReply_enabled {s : Ingress} {c : ConnId} {rest : Bytes} {event : WriteEvent} :
    stepReply d s c rest event ≠ none ↔
      writeStep d.capacity (s.connections c).stream rest event ≠ none := by
  unfold stepReply
  split <;> next h => simp [h]

theorem stepServerWrite_enabled {v : Supervisor} {capacity : ℕ} {c : ConnId}
    {reply : SupervisionReply} {rest : Bytes} {event : WriteEvent} :
    stepServerWrite capacity v c reply rest event ≠ none ↔
      writeStep capacity (v.connections c).stream rest event ≠ none := by
  unfold stepServerWrite
  split <;> next h => simp [h]

/-- Where one kind of event alone is enabled, some allowed event is enabled exactly if one of
that kind is. -/
theorem enabled_by {ε κ : Type} {allowed enabled : ε → Prop} {possible : κ → Prop} (kind : κ → ε)
    (h : ∀ e, enabled e ↔ ∃ k, e = kind k ∧ possible k) (ha : ∀ k, allowed (kind k)) :
    (∃ e, allowed e ∧ enabled e) ↔ ∃ k, possible k := by
  constructor
  · rintro ⟨e, _, he⟩
    obtain ⟨k, _, hk⟩ := (h e).mp he
    exact ⟨k, hk⟩
  · rintro ⟨k, hk⟩
    exact ⟨kind k, ha k, (h (kind k)).mpr ⟨k, rfl, hk⟩⟩

/-- The main thread can go on exactly when it does not wait for a peer. -/
theorem stepMain_enabled_iff {s : Ingress} {actions : List Action} (hi : Inv d actions s)
    (hx : s.phase.isExited = false) (flag : Bool) :
    (∃ event, (∀ stop, event = .poll stop → stop = flag) ∧ stepMain d s event ≠ none) ↔
      ¬ MainWaits d s := by
  have hserves := hi.serves
  unfold MainWaits
  cases hp : s.phase with
  | polling => exact ⟨fun _ => id, fun _ => ⟨.poll flag, by simp, by simp [stepMain, hp]⟩⟩
  | scanning k => exact ⟨fun _ => id, fun _ => ⟨.accept, by simp, by simp [stepMain, hp]⟩⟩
  | sleeping => exact ⟨fun _ => id, fun _ => ⟨.wake, by simp, by simp [stepMain, hp]⟩⟩
  | opening c authority =>
    exact ⟨fun _ => id, fun _ => ⟨.credentials true, by simp, by simp [stepMain, hp]⟩⟩
  | forwarding c ingress received =>
    exact ⟨fun _ => id, fun _ => ⟨.stamp 0, by simp, by simp [stepMain, hp]⟩⟩
  | stopping =>
    exact ⟨fun _ => id, fun _ => ⟨.stopRoot (.error ""), by simp, by simp [stepMain, hp]⟩⟩
  | exited result =>
    rw [hp] at hx
    cases hx
  | reading c ingress got =>
    rw [← readStep_enabled_iff d.lib]
    refine enabled_by MainEvent.read (fun event => ?_) (fun event => by simp)
    cases event <;> simp [stepMain, hp, stepReadRequest_enabled]
  | connecting c received image =>
    constructor
    · rintro ⟨event, _, h⟩
      cases event with
      | connect => simpa [stepMain, hp, stepConnect_enabled] using h
      | _ => simp [stepMain, hp] at h
    · intro h
      exact ⟨.connect, by simp, by simpa [stepMain, hp, stepConnect_enabled] using h⟩
  | submitting c received rest =>
    rw [hp] at hserves
    obtain ⟨_, _, _, _, _, _, _, _, hne⟩ := hserves
    rw [← writeStep_enabled_iff hne]
    refine enabled_by MainEvent.write (fun event => ?_) (fun event => by simp)
    cases event <;> simp [stepMain, hp, stepSubmit_enabled]
  | awaiting c received got =>
    rw [← readStep_enabled_iff d.lib]
    refine enabled_by MainEvent.read (fun event => ?_) (fun event => by simp)
    cases event <;> simp [stepMain, hp, stepAwait_enabled]
  | replying c rest =>
    rw [hp] at hserves
    rw [← writeStep_enabled_iff hserves.1]
    refine enabled_by MainEvent.write (fun event => ?_) (fun event => by simp)
    cases event <;> simp [stepMain, hp, stepReply_enabled]

/-- The connection that the supervision thread serves. -/
def ServerPhase.current : ServerPhase → Option ConnId
  | .reading c _ => some c
  | .asking c _ => some c
  | .replying c _ _ => some c
  | .checking c => some c
  | _ => none

theorem main_step_iff (hx : p.ingress.phase.isExited = false) (event : MainEvent) :
    step lib d p (.ingress (.main event)) ≠ none ↔
      (∀ stop, event = .poll stop → stop = p.supervisor.stopRequested) ∧
        stepMain d p.ingress event ≠ none := by
  cases event <;> simp [step, hx, admits, IngressMachine.step]

theorem server_step_iff (hx : p.ingress.phase.isExited = false) (event : ServerEvent) :
    step lib d p (.server event) ≠ none ↔ stepServer lib d.capacity p.supervisor event ≠ none := by
  simp [step, hx]

theorem main_enabled_iff (hi : ProcessInv lib d log p) (hx : p.ingress.phase.isExited = false) :
    (∃ event, step lib d p (.ingress (.main event)) ≠ none) ↔ ¬ MainWaits d p.ingress := by
  simp only [main_step_iff hx]
  exact stepMain_enabled_iff hi.ingress hx p.supervisor.stopRequested

end PersonaMessage.ProcessMachine
