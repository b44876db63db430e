import PersonaMessage.IngressBound
import PersonaMessage.ProcessLiveness

/-! How long a requested stop can take. Each thread has a bounded number of steps left when the
flag is set, and a thread that can make none of them has ended or waits for a peer. -/
namespace PersonaMessage.ProcessMachine
open ByteStream SignalFrames FrameProgress DaemonStamping Transitions IngressMachine Supervision
  SupervisionFrameCodec TableLibrary

def isMainStep : ProcessEvent → Bool
  | .ingress event => isMain event
  | _ => false

def isServerStep : ProcessEvent → Bool
  | .server _ => true
  | _ => false

/-- The steps that the supervision thread can make once the flag is set. -/
def serverLeft : ServerPhase → ℕ
  | .polling => 1
  | .checking _ => 2
  | .replying _ _ rest => rest.length+2
  | _ => 0

/-- The reply that the supervision thread is writing has an encoded frame's length at most. -/
def ReplyFits (v : Supervisor) : Prop :=
  ∀ c reply rest, v.phase = .replying c reply rest → rest.length ≤ longestWire

variable {lib : SupervisionLibrary} {d : Deployment} {log more out : List ProcessAction}
  {p q : Process} {v w : Supervisor}

theorem replyFits_stepServer {event : ServerEvent} (hv : ReplyFits v)
    (hs : stepServer lib d.capacity v event = some (w, out)) : ReplyFits w := by
  intro c reply rest hw
  cases stepServer_cases hs with
  | poll place => split_ifs at hw
  | accept place =>
    unfold stepAccept at hw
    split at hw <;> cases hw
  | acceptFailed | wake | readFailed | refused | received | askFailed | writeFailed | written =>
    cases hw
  | readMore => cases hw
  | @ask c' received place =>
    simp only [stepAsk] at hw
    split at hw
    · cases hw
    · next bytes he =>
      obtain ⟨rfl, rfl, rfl⟩ := ServerPhase.replying.inj hw
      exact encoded_length (writeReply_ok he)
  | @writeMore c' reply' rest₀ rest' event stream place left write =>
    obtain ⟨rfl, rfl, rfl⟩ := ServerPhase.replying.inj hw
    exact (writeStep_shorter write).le.trans (hv _ _ _ place)
  | check place => split_ifs at hw

theorem replyFits_stepPeer {event : PeerEvent} (hv : ReplyFits v)
    (hs : stepPeer v event = some w) : ReplyFits w := by
  have hphase : w.phase = v.phase := by
    cases event with
    | connect =>
      obtain rfl := Option.some.inj hs
      rfl
    | _ =>
      simp only [stepPeer] at hs
      split_ifs at hs
      obtain rfl := Option.some.inj hs
      rfl
  intro c reply rest hw
  exact hv c reply rest (hphase ▸ hw)

theorem replyFits_run {listen : RouterListener} {events : List ProcessEvent}
    (hr : (machine lib d).run (initial d listen) events = some (p, log)) :
    ReplyFits p.supervisor := by
  refine @Machine.run_invariant _ _ _ (machine lib d) (fun _ p => ReplyFits p.supervisor)
    (fun hv hs => ?_) _ _ _ _ (fun c reply rest h => ?_) hr
  · rcases (step_cases hs).2 with ⟨e, ingress, actions, rfl, _, _, rfl, _⟩ |
      ⟨e, supervisor, rfl, hs', rfl⟩ | ⟨e, supervisor, rfl, hs', rfl, _⟩
    · exact hv
    · exact replyFits_stepServer hv hs'
    · exact replyFits_stepPeer hv hs'
  · cases h

/-- With the flag set, every step of the supervision thread uses one of those left. -/
theorem serverLeft_stepServer {event : ServerEvent} (hi : ServerInv lib log v)
    (hf : v.stopRequested = true) (hs : stepServer lib d.capacity v event = some (w, out)) :
    serverLeft w.phase+1 ≤ serverLeft v.phase := by
  have hplace := hi.place
  have hunset : ∀ {phase : ServerPhase}, v.phase = phase →
      (ServerAt lib log v phase → v.stopRequested = false) → False := by
    intro phase hp hn
    rw [hp] at hplace
    have hn' := hn hplace
    rw [hf] at hn'
    cases hn'
  cases stepServer_cases hs with
  | poll place =>
    rw [place, hf]
    exact le_rfl
  | accept place => exact (hunset place id).elim
  | acceptFailed place => exact (hunset place id).elim
  | wake place => exact (hunset place id).elim
  | readMore place => exact (hunset place id).elim
  | readFailed place => exact (hunset place id).elim
  | refused place => exact (hunset place id).elim
  | received place => exact (hunset place id).elim
  | ask place => exact (hunset place And.left).elim
  | askFailed place => exact (hunset place And.left).elim
  | writeFailed place =>
    rw [place]
    exact Nat.succ_le_succ (Nat.succ_le_succ (Nat.zero_le _))
  | written place write =>
    have hl := writeStep_shorter write
    rw [place]
    simp only [Supervisor.setStream, serverLeft]
    omega
  | writeMore place left write =>
    have hl := writeStep_shorter write
    rw [place]
    simp only [Supervisor.setStream, serverLeft]
    omega
  | check place =>
    rw [place, hf]
    exact le_rfl

/-- The flag stays set. -/
def Stopped (lib : SupervisionLibrary) (log more : List ProcessAction) (p : Process) : Prop :=
  ServerInv lib (log ++ more) p.supervisor ∧ p.supervisor.stopRequested = true

theorem stopped_step {event : ProcessEvent} (h : Stopped lib log more p)
    (hs : step lib d p event = some (q, out)) : Stopped lib log (more ++ out) q := by
  have hi := serverInv_step h.1 hs
  rw [List.append_assoc] at hi
  obtain ⟨c, hc⟩ := h.1.flag.mp h.2
  rw [← List.append_assoc] at hi
  refine ⟨by rwa [← List.append_assoc], hi.flag.mpr ⟨c, ?_⟩⟩
  exact List.mem_append_left _ hc

theorem main_pays {event : ProcessEvent} (h : Stopped lib log more p)
    (hs : step lib d p event = some (q, out)) :
    stepsLeft d q.ingress.phase+(if isMainStep event then 1 else 0) ≤
      stepsLeft d p.ingress.phase := by
  rcases (step_cases hs).2 with ⟨e, ingress, actions, rfl, ha, hs', rfl, _⟩ |
    ⟨e, supervisor, rfl, hs', rfl⟩ | ⟨e, supervisor, rfl, hs', rfl, _⟩
  · have hl := stepsLeft_step hs'
    have hstart : startsTurn e = false := by
      by_contra hn
      unfold startsTurn at hn
      split at hn
      · simp [admits, h.2] at ha
      · exact hn rfl
    rw [hstart] at hl
    exact hl
  · exact le_rfl
  · exact le_rfl

theorem server_pays {event : ProcessEvent} (h : Stopped lib log more p)
    (hs : step lib d p event = some (q, out)) :
    serverLeft q.supervisor.phase+(if isServerStep event then 1 else 0) ≤
      serverLeft p.supervisor.phase := by
  rcases (step_cases hs).2 with ⟨e, ingress, actions, rfl, _, _, rfl, _⟩ |
    ⟨e, supervisor, rfl, hs', rfl⟩ | ⟨e, supervisor, rfl, hs', rfl, _⟩
  · exact le_rfl
  · exact serverLeft_stepServer h.1 h.2 hs'
  · have hphase : supervisor.phase = p.supervisor.phase := by
      cases e with
      | connect =>
        obtain rfl := Option.some.inj hs'
        rfl
      | _ =>
        simp only [stepPeer] at hs'
        split_ifs at hs'
        obtain rfl := Option.some.inj hs'
        rfl
    rw [hphase]
    exact le_rfl

theorem serverLeft_le (hv : ReplyFits v) : serverLeft v.phase ≤ longestWire+2 := by
  cases hp : v.phase with
  | replying c reply rest => exact Nat.add_le_add_right (hv c reply rest hp) 2
  | _ =>
    simp only [serverLeft]
    omega

/-- Once stopped, the supervision thread has ended, or goes on unless its peer keeps it waiting. -/
theorem server_stopped_enabled (hi : ServerInv lib log v) (hf : v.stopRequested = true)
    (hn : ∀ event, stepServer lib d.capacity v event = none) :
    v.phase = .finished ∨ ServerWaits d.capacity v := by
  have hplace := hi.place
  cases hp : v.phase with
  | finished => exact Or.inl rfl
  | polling => simpa [stepServer, hp] using hn .poll
  | checking c => simpa [stepServer, hp] using hn .check
  | replying c reply rest =>
    rw [hp] at hplace
    right
    by_contra hw
    have hw' : ¬ (v.connections c).stream.Full d.capacity := by
      simpa only [ServerWaits, hp] using hw
    obtain ⟨event, he⟩ := (writeStep_enabled_iff hplace.1).mpr hw'
    have h := hn (.write event)
    simp only [stepServer, hp] at h
    exact stepServerWrite_enabled.mpr he h
  | asking c received =>
    rw [hp] at hplace
    have hplace' := hplace.1
    rw [hf] at hplace'
    cases hplace'
  | _ =>
    rw [hp] at hplace
    have hplace' : v.stopRequested = false := hplace
    rw [hf] at hplace'
    cases hplace'

/-- What a requested stop still takes: each thread makes a bounded number of steps, and one that
can make none has ended or is in a call that waits for a peer. -/
structure StopBounded (lib : SupervisionLibrary) (d : Deployment) (later : List ProcessEvent)
    (q : Process) : Prop where
  main : later.countP isMainStep ≤ turnBound d
  server : later.countP isServerStep ≤ longestWire+2
  mainStuck : (∀ event, step lib d q (.ingress (.main event)) = none) →
    q.ingress.phase.isExited = true ∨ MainWaits d q.ingress
  serverStuck : (∀ event, step lib d q (.server event) = none) →
    q.ingress.phase.isExited = true ∨ q.supervisor.phase = .finished ∨
      ServerWaits d.capacity q.supervisor

/-- After a stop was requested, whatever the peers do, `run` returns within `turnBound` steps of
the main thread, unless a peer keeps a call of it waiting; the same of the supervision thread. -/
theorem stop_bounded {listen : RouterListener} {events later : List ProcessEvent}
    (hr : (machine lib d).run (initial d listen) events = some (p, log))
    (hf : p.supervisor.stopRequested = true)
    (hr' : (machine lib d).run p later = some (q, more)) : StopBounded lib d later q := by
  have hi := processInv_run hr
  have hq := processInv_run (Machine.run_append hr hr')
  have h0 : Stopped lib log [] p := ⟨by rw [List.append_nil]; exact hi.server, hf⟩
  have hmain := @Machine.run_amortised _ _ _ (machine lib d) (Stopped lib log)
    (fun p => stepsLeft d p.ingress.phase) (fun e => if isMainStep e then 1 else 0) (fun _ => 0)
    stopped_step main_pays _ _ _ _ _ h0 hr'
  have hserver := @Machine.run_amortised _ _ _ (machine lib d) (Stopped lib log)
    (fun p => serverLeft p.supervisor.phase) (fun e => if isServerStep e then 1 else 0)
    (fun _ => 0) stopped_step server_pays _ _ _ _ _ h0 hr'
  rw [sum_indicator] at hmain hserver
  simp only [List.map_const', List.sum_replicate, smul_eq_mul, Nat.mul_zero, Nat.add_zero,
    Nat.one_mul] at hmain hserver
  refine ⟨?_, ?_, fun hn => ?_, fun hn => ?_⟩
  · have hb := stepsLeft_le hi.ingress
    omega
  · have hb := serverLeft_le (replyFits_run hr)
    omega
  · by_cases hx : q.ingress.phase.isExited = true
    · exact Or.inl hx
    · have hx' : q.ingress.phase.isExited = false := by simpa using hx
      right
      by_contra hw
      obtain ⟨event, he⟩ := (main_enabled_iff hq hx').mpr hw
      exact he (hn event)
  · by_cases hx : q.ingress.phase.isExited = true
    · exact Or.inl hx
    · have hx' : q.ingress.phase.isExited = false := by simpa using hx
      have hstopped := @Machine.run_invariant_along _ _ _ (machine lib d) (fun _ _ => True)
        (Stopped lib log) (fun h _ hs => stopped_step h hs) _ _ _ _ _ h0
        (Machine.along_of (fun _ _ => trivial) p later) hr'
      refine Or.inr (server_stopped_enabled hq.server hstopped.2 fun event => ?_)
      by_contra he
      exact (server_step_iff hx' event).mpr he (hn event)

/-- The acknowledgement goes out, the main thread sees the flag, and `run` returns. -/
def stopServedEvents : List ProcessEvent :=
  [.server (.write (.bytes 5)), .ingress (.main (.poll true)), stopRootEvent]

theorem stop_served_run : ∃ p q log more,
    (machine stopLibrary ownerDeployment).run (initial ownerDeployment .ready)
      (stopRequestEvents ++ [.server .ask]) = some (p, log) ∧
    p.supervisor.stopRequested = true ∧
    (machine stopLibrary ownerDeployment).run p stopServedEvents = some (q, more) :=
  ⟨_, _, _, _, rfl, rfl, rfl⟩

theorem stop_served_bounded : ∃ p q log more,
    (machine stopLibrary ownerDeployment).run (initial ownerDeployment .ready)
      (stopRequestEvents ++ [.server .ask]) = some (p, log) ∧
    (machine stopLibrary ownerDeployment).run p stopServedEvents = some (q, more) ∧
    StopBounded stopLibrary ownerDeployment stopServedEvents q := by
  obtain ⟨p, q, log, more, hr, hf, hr'⟩ := stop_served_run
  exact ⟨p, q, log, more, hr, hr', stop_bounded hr hf hr'⟩

end PersonaMessage.ProcessMachine

