import PersonaMessage.AcceptOrder
import PersonaMessage.ProcessInvariant

/-! A graceful stop between the two threads: whether its acknowledgement is written before
the process ends, and whether connections are still accepted after it. -/
namespace PersonaMessage.ProcessMachine
open ByteStream SignalFrames FrameProgress RouterCodec DaemonStamping Transitions IngressMachine
  Supervision SupervisionFrameCodec TableLibrary

variable {lib : SupervisionLibrary} {d : Deployment} {log out : List ProcessAction} {p q : Process}

/-- Every processed stop request whose client keeps its connection has been acknowledged. -/
def StopAcknowledged (log : List ProcessAction) (p : Process) : Prop :=
  ∀ c, .handled c .gracefulStopRequest ∈ log →
    (p.supervisor.connections c).stream.closed = false → .replied c acknowledgement ∈ log

/-- The supervision thread still has bytes of an acknowledgement to write. -/
def AcknowledgementPending (p : Process) : Prop :=
  ∃ c rest, p.supervisor.phase = .replying c acknowledgement rest ∧
    (p.supervisor.connections c).stream.closed = false

/-- An acknowledgement that is being written has not been written yet. -/
theorem ServerInv.pending {v : Supervisor} (hi : ServerInv lib log v) {c : ConnId} {rest : Bytes}
    (hp : v.phase = .replying c acknowledgement rest) :
    .handled c .gracefulStopRequest ∈ log ∧ .replied c acknowledgement ∉ log := by
  have hplace := hi.place
  rw [hp] at hplace
  obtain ⟨_, hstop, hrun⟩ := hplace
  have hset : v.stopRequested = true := by
    by_contra hf
    exact hrun (by simpa using hf) rfl
  exact (hstop hset).2

/-- Only a step of the main thread ends the process. -/
theorem step_exits {event : ProcessEvent} (hs : step lib d p event = some (q, out))
    (hx : q.ingress.phase.isExited = true) :
    q.supervisor = p.supervisor ∧ ∃ actions : List Action, out = actions.map .ingress := by
  obtain ⟨hn, h⟩ := step_cases hs
  rcases h with ⟨e, ingress, actions, rfl, _, _, rfl, rfl⟩ | ⟨e, supervisor, rfl, _, rfl⟩ |
    ⟨e, supervisor, rfl, _, rfl, rfl⟩
  · exact ⟨rfl, actions, rfl⟩
  · rw [hn] at hx
    cases hx
  · rw [hn] at hx
    cases hx

/-- When `run` returns `Ok`, every stop has been acknowledged exactly if the main thread did
not return while the acknowledgement was being written. -/
theorem stop_acknowledged_iff (hl : AcknowledgementEncodes lib) {listen : RouterListener}
    {events : List ProcessEvent} {event : ProcessEvent}
    (hr : (machine lib d).run (initial d listen) events = some (p, log))
    (hs : step lib d p event = some (q, out)) (hx : q.ingress.phase = .exited (.ok ())) :
    StopAcknowledged (log ++ out) q ↔ ¬ AcknowledgementPending p := by
  have hi := (processInv_run hr).server
  obtain ⟨hv, actions, rfl⟩ := step_exits hs (by rw [hx]; rfl)
  constructor
  · rintro h ⟨c, rest, hp, hc⟩
    obtain ⟨hh, hn⟩ := hi.pending hp
    have ha := h c (List.mem_append_left _ hh) (by rw [hv]; exact hc)
    exact hn (by simpa using ha)
  · intro h c hh hc
    have hh' : .handled c .gracefulStopRequest ∈ log := by simpa using hh
    rw [hv] at hc
    rcases hi.owed hl c hh' with hr' | ⟨rest, hp⟩ | hclosed
    · exact List.mem_append_left _ hr'
    · exact absurd ⟨c, rest, hp, hc⟩ h
    · rw [hc] at hclosed
      cases hclosed

/-- A stop request and its acknowledgement. -/
def stopFrames : List SupervisionFrame :=
  [⟨.request SignalRouterFrameCodec.connectorExchange ⟨.single ⟨⟨"Assert"⟩, .gracefulStopRequest⟩⟩⟩,
    replyFrame SignalRouterFrameCodec.connectorExchange ⟨"Assert"⟩ acknowledgement]

def stopLibrary : SupervisionLibrary := tableLibrary (fun _ => ⟨"Assert"⟩) stopFrames

theorem stopLibrary_encodes : AcknowledgementEncodes stopLibrary := by
  rintro received ⟨bytes, frame, hd, hr⟩
  have hm := decode_mem hd
  simp only [stopFrames, List.mem_cons, List.not_mem_nil, or_false] at hm
  rcases hm with rfl | rfl
  · obtain rfl := Except.ok.inj hr
    exact ⟨frameBytes 1, by decide⟩
  · cases hr

/-- A peer sends a stop request, and the supervision thread reads it. -/
def stopRequestEvents : List ProcessEvent :=
  [.peer .connect, .peer (.write 0 (frameBytes 0)), .server .poll, .server .accept,
    .server (.read (.bytes 4)), .server (.read .check)]

def cleanOutcome : ActorTerminalOutcome := ⟨.dropped, .stopped, "stopped"⟩

def stopRootEvent : ProcessEvent := .ingress (.main (.stopRoot (.ok cleanOutcome)))

def earlyExitEvents : List ProcessEvent :=
  stopRequestEvents ++ [.server .ask, .ingress (.main (.poll true))]

theorem early_exit_run : ∃ p q,
    (machine stopLibrary ownerDeployment).run (initial ownerDeployment .ready) earlyExitEvents =
      some (p, [.handled 0 .gracefulStopRequest]) ∧
    step stopLibrary ownerDeployment p stopRootEvent = some (q, []) ∧
    q.ingress.phase = .exited (.ok ()) ∧ (q.supervisor.connections 0).stream.closed = false :=
  ⟨_, _, rfl, rfl, rfl, rfl⟩

theorem early_exit_acknowledged_iff : ∃ p q,
    step stopLibrary ownerDeployment p stopRootEvent = some (q, []) ∧
    (StopAcknowledged [.handled 0 .gracefulStopRequest] q ↔ ¬ AcknowledgementPending p) := by
  obtain ⟨p, q, hr, hs, hx, _⟩ := early_exit_run
  exact ⟨p, q, hs, stop_acknowledged_iff stopLibrary_encodes hr hs hx⟩

/-- The main thread polls the flag, stops the root and returns before the first byte of the
acknowledgement is written. -/
theorem stop_unacknowledged : ∃ q log,
    (machine stopLibrary ownerDeployment).run (initial ownerDeployment .ready)
      (earlyExitEvents ++ [stopRootEvent]) = some (q, log) ∧
    q.ingress.phase = .exited (.ok ()) ∧ ¬ StopAcknowledged log q := by
  obtain ⟨p, q, hr, hs, hx, hc⟩ := early_exit_run
  refine ⟨q, _, Machine.run_append hr (run_step hs), hx, fun h => ?_⟩
  have ha := h 0 (by simp) hc
  simp at ha

/-- The main thread has seen the flag unset and is still asking its listeners. -/
def AcceptWindow (d : Deployment) (p : Process) : Prop :=
  ∃ k < d.bindings.length, p.ingress.phase = .scanning k

/-- Nothing is accepted in this part of the history, and nothing forwarded for a connection
that was made after an acknowledgement. -/
def RejectsIngress (log : List ProcessAction) : Prop :=
  (∀ c, .ingress (.accepted c) ∉ log) ∧
  ∀ s c listener peer wire,
    Precedes log (.replied s acknowledgement) (.ingress (.connected c listener peer)) →
    .ingress (.forwarded c wire) ∉ log

/-- Outside the window, with the flag set, the main thread accepts nothing any more. -/
def Stopping (d : Deployment) (p : Process) : Prop :=
  p.supervisor.stopRequested = true ∧ ¬ AcceptWindow d p

/-- A step that serves a connection accepts none and does not go back to the listeners. -/
def Serving (t : Ingress) (actions : List Action) : Prop :=
  (∀ c, .accepted c ∉ actions) ∧ ∀ k, t.phase ≠ .scanning k

theorem serving_of_attends {s t : Ingress} {actions : List Action}
    (h : Attends s t actions) : Serving t actions := by
  refine ⟨fun c hc => ?_, h.away⟩
  have hsilent := h.silent _ hc
  simp [Action.queueing] at hsilent

/-- The main thread accepts, and stays among its listeners, only from among its listeners;
it gets there by a poll that saw the flag unset. -/
theorem stepMain_window {s t : Ingress} {event : MainEvent} {actions : List Action}
    (hs : stepMain d s event = some (t, actions))
    (hw : ∀ k < d.bindings.length, s.phase ≠ .scanning k) :
    (∀ c, .accepted c ∉ actions) ∧
      ((∀ k, t.phase ≠ .scanning k) ∨ event = .poll false) := by
  rcases stepMain_cases hs with ⟨stop, rfl, _, rfl, rfl⟩ | ⟨k, _, hp, hscan⟩ | hattends
  · refine ⟨fun _ => List.not_mem_nil, ?_⟩
    cases stop with
    | false => exact Or.inr rfl
    | true => exact Or.inl (by simp)
  · have hk : d.bindings[k]? = none := by
      rw [List.getElem?_eq_none_iff]
      by_contra hlt
      exact hw k (by omega) hp
    simp only [stepScan, hk] at hscan
    obtain ⟨rfl, rfl⟩ := Prod.mk.inj hscan
    exact ⟨fun _ => List.not_mem_nil, Or.inl (by simp)⟩
  · exact (serving_of_attends hattends).imp id Or.inl

/-- Clients and the router leave the main thread where it is. -/
theorem step_environment {s t : Ingress} {actions : List Action} {event : Event}
    (hs : IngressMachine.step d s event = some (t, actions)) (hm : ∀ e, event ≠ .main e) :
    (∀ c, .accepted c ∉ actions) ∧ t.phase = s.phase := by
  unfold IngressMachine.step at hs
  split_ifs at hs
  cases event with
  | main e => exact absurd rfl (hm e)
  | client e =>
    rcases stepClient_cases hs with ⟨listener, peer, _, rfl, rfl⟩ | ⟨c, stream, _, _, rfl, rfl⟩
    · exact ⟨by simp, rfl⟩
    · exact ⟨fun _ => List.not_mem_nil, rfl⟩
  | router e =>
    obtain ⟨rfl, rfl⟩ := Prod.mk.inj (Option.some.inj hs)
    cases e <;> exact ⟨by simp, rfl⟩

theorem step_main {s : Ingress} {event : MainEvent}
    {result : Ingress × List Action} (hs : IngressMachine.step d s (.main event) = some result) :
    stepMain d s event = some result := by
  unfold IngressMachine.step at hs
  split_ifs at hs
  exact hs

theorem stopping_step {event : ProcessEvent} (hi : ServerInv lib log p.supervisor)
    (h : Stopping d p) (hs : step lib d p event = some (q, out)) :
    Stopping d q ∧ ∀ c, .ingress (.accepted c) ∉ out := by
  obtain ⟨hf, hw⟩ := h
  have hflag : q.supervisor.stopRequested = true := by
    obtain ⟨c, hc⟩ := hi.flag.mp hf
    exact (serverInv_step hi hs).flag.mpr ⟨c, List.mem_append_left _ hc⟩
  rcases (step_cases hs).2 with ⟨e, ingress, actions, rfl, ha, hs', rfl, rfl⟩ |
    ⟨e, supervisor, rfl, hs', rfl⟩ | ⟨e, supervisor, rfl, hs', rfl, rfl⟩
  · have hmain : (∀ c, .accepted c ∉ actions) ∧ ¬ AcceptWindow d { p with ingress } := by
      by_cases hm : ∃ e', e = .main e'
      · obtain ⟨e', rfl⟩ := hm
        obtain ⟨hacc, hphase⟩ := stepMain_window (step_main hs') (fun k hk hp => hw ⟨k, hk, hp⟩)
        refine ⟨hacc, ?_⟩
        rintro ⟨k, hk, hp⟩
        rcases hphase with hn | rfl
        · exact hn k hp
        · simp [admits, hf] at ha
      · obtain ⟨hacc, hphase⟩ := step_environment hs' (fun e' he => hm ⟨e', he⟩)
        refine ⟨hacc, ?_⟩
        rintro ⟨k, hk, hp⟩
        exact hw ⟨k, hk, hphase ▸ hp⟩
    exact ⟨⟨hflag, hmain.2⟩, fun c hc => hmain.1 c (by simpa using hc)⟩
  · refine ⟨⟨hflag, hw⟩, fun c hc => ?_⟩
    have hn := stepServer_silent hs'
    have hm : .accepted c ∈ out.filterMap ingressAction :=
      List.mem_filterMap.mpr ⟨_, hc, rfl⟩
    rw [hn] at hm
    cases hm
  · exact ⟨⟨hflag, hw⟩, fun _ => List.not_mem_nil⟩

/-- From a stopping state on, no connection is accepted. -/
theorem stopping_run {more : List ProcessAction} {events : List ProcessEvent}
    (hi : ServerInv lib log p.supervisor) (h : Stopping d p)
    (hr : (machine lib d).run p events = some (q, more)) (c : ConnId) :
    .ingress (.accepted c) ∉ more := by
  have hrun := @Machine.run_invariant _ _ _ (machine lib d)
    (fun more p => ServerInv lib (log ++ more) p.supervisor ∧ Stopping d p ∧
      ∀ c, .ingress (.accepted c) ∉ more)
    (fun {more s i t out} hinv hs => by
      obtain ⟨hserver, hstop, hacc⟩ := hinv
      obtain ⟨hstop', hacc'⟩ := stopping_step hserver hstop hs
      have hserver' := serverInv_step hserver hs
      rw [List.append_assoc] at hserver'
      refine ⟨hserver', hstop', fun c hc => ?_⟩
      rcases List.mem_append.mp hc with hc | hc
      · exact hacc c hc
      · exact hacc' c hc)
    _ _ _ _ ⟨by rwa [List.append_nil], h, fun _ => List.not_mem_nil⟩ hr
  exact hrun.2.2 c

/-- The state after a client has connected. -/
def afterConnect (s : Ingress) (k : ℕ) (peer : PeerCredentials) : Ingress :=
  ({ s with opened := s.opened+1 } : Ingress).setConnection s.opened ⟨k, peer, .fresh, true⟩

/-- A client that connects to the listener that is asked next is accepted. -/
theorem accept_after_connect {s : Ingress} {k : ℕ} (hk : k < d.bindings.length)
    (hp : s.phase = .scanning k) (peer : PeerCredentials) :
    IngressMachine.step d s (.client (.connect k peer)) =
        some (afterConnect s k peer, [.connected s.opened k peer]) ∧
      ∃ u c, IngressMachine.step d (afterConnect s k peer) (.main .accept) =
        some (u, [.accepted c]) := by
  have hp' : (afterConnect s k peer).phase = .scanning k := hp
  have hw : (afterConnect s k peer).waiting k ≠ none := by
    simp only [afterConnect, Ingress.waiting, Ingress.setConnection, ne_eq,
      List.find?_eq_none, not_forall]
    exact ⟨s.opened, by simp, by simp⟩
  obtain ⟨c, hc⟩ := Option.ne_none_iff_exists'.mp hw
  have ha : d.bindings[k]? = some d.bindings[k] := List.getElem?_eq_getElem hk
  constructor
  · simp [IngressMachine.step, hp, MainPhase.isExited, stepClient, hk, afterConnect]
  · simp only [IngressMachine.step, hp', MainPhase.isExited, Bool.false_eq_true, if_false,
      stepMain, stepScan, ha, hc]
    exact ⟨_, c, rfl⟩

/-- The client that steps into the window after the flag was set is accepted. -/
theorem window_accepts (lib : SupervisionLibrary) (h : AcceptWindow d p) :
    ∃ events u more c, (machine lib d).run p events = some (u, more) ∧
      .ingress (.accepted c) ∈ more := by
  obtain ⟨k, hk, hp⟩ := h
  obtain ⟨hconnect, u, c, haccept⟩ := accept_after_connect hk hp ⟨⟨0⟩⟩
  have h₁ := run_step (step_ingress lib (p := p) rfl hconnect)
  have h₂ := run_step (step_ingress lib
    (p := { p with ingress := afterConnect p.ingress k ⟨⟨0⟩⟩ }) rfl haccept)
  exact ⟨_, _, _, c, Machine.run_append h₁ h₂, by simp⟩

/-- A connection made in this part of the history was not accepted before it. -/
theorem accepted_after_connected {before after : List Action} {s t : Ingress}
    (hb : Inv d before s) (ha : Inv d (before ++ after) t) {c : ConnId} {listener : ℕ}
    {peer : PeerCredentials} (hc : .connected c listener peer ∈ after) : .accepted c ∉ before := by
  intro hm
  have hpos := (hb.connected c).2 (List.ne_nil_of_mem (mem_history.mpr ⟨hm, rfl⟩))
  have hone := (ha.connected c).1
  have hpos' : 0 < (history c after).countP Action.isConnected :=
    List.countP_pos_iff.mpr ⟨_, mem_history.mpr ⟨hc, rfl⟩, rfl⟩
  rw [history_append, List.countP_append] at hone
  omega

theorem forwarded_accepted {log : List Action} {s : Ingress} (hi : Inv d log s) {c : ConnId}
    {wire : Bytes} (h : .forwarded c wire ∈ log) : .accepted c ∈ log := by
  have hm : .forwarded c wire ∈ history c log := mem_history.mpr ⟨h, rfl⟩
  have hc := hi.conversation c
  have hl : .accepted c ∈ history c log → .accepted c ∈ log := fun h => (mem_history.mp h).1
  generalize history c log = entries at hm hc hl
  cases hc with
  | absent => simp at hm
  | connected => simp at hm
  | accepted => simp [opened] at hm
  | _ => exact hl (by simp [opened])

/-- After the flag is stored nothing more is accepted, whatever happens, exactly if the
store does not fall into the window between the main thread's poll and its last listener. -/
theorem later_ingress_rejected_iff {listen : RouterListener} {events : List ProcessEvent}
    {c : ConnId} (hr : (machine lib d).run (initial d listen) events = some (p, log))
    (hs : step lib d p (.server .ask) = some (q, [.handled c .gracefulStopRequest])) :
    (∀ later u more, (machine lib d).run q later = some (u, more) → RejectsIngress more) ↔
      ¬ AcceptWindow d p := by
  have hq : q.ingress = p.ingress := by
    rcases (step_cases hs).2 with ⟨e, _, _, he, _⟩ | ⟨e, supervisor, _, _, rfl⟩ |
      ⟨e, supervisor, he, _⟩
    · cases he
    · rfl
    · cases he
  have hrun := Machine.run_append hr (run_step hs)
  have hi := processInv_run hrun
  constructor
  · intro h hw
    obtain ⟨later, u, more, c', hr', hm⟩ := window_accepts lib
      (show AcceptWindow d q from by rwa [AcceptWindow, hq])
    exact (h later u more hr').1 c' hm
  · intro hw later u more hr'
    have hstop : Stopping d q := by
      refine ⟨hi.server.flag.mpr ⟨c, by simp⟩, ?_⟩
      rwa [AcceptWindow, hq]
    have hacc := stopping_run hi.server hstop hr'
    refine ⟨hacc, fun s' c' listener peer wire hprec hf => ?_⟩
    have hi' := (processInv_run (Machine.run_append hrun hr')).ingress
    rw [List.filterMap_append] at hi'
    have hmem : ∀ a : Action, .ingress a ∈ more → a ∈ more.filterMap ingressAction :=
      fun a ha => List.mem_filterMap.mpr ⟨_, ha, rfl⟩
    have hold := accepted_after_connected hi.ingress hi' (hmem _ hprec.mem_right)
    have hin := forwarded_accepted hi' (List.mem_append_right _ (hmem _ hf))
    rcases List.mem_append.mp hin with hin | hin
    · exact hold hin
    · obtain ⟨a, ha, he⟩ := List.mem_filterMap.mp hin
      cases a with
      | ingress a =>
        obtain rfl := Option.some.inj he
        exact hacc c' ha
      | handled => cases he
      | replied => cases he

theorem stop_request_run : ∃ p q,
    (machine stopLibrary ownerDeployment).run (initial ownerDeployment .ready)
      stopRequestEvents = some (p, []) ∧
    step stopLibrary ownerDeployment p (.server .ask) =
      some (q, [.handled 0 .gracefulStopRequest]) := ⟨_, _, rfl, rfl⟩

theorem stop_request_rejects_iff : ∃ p q,
    step stopLibrary ownerDeployment p (.server .ask) =
      some (q, [.handled 0 .gracefulStopRequest]) ∧
    ((∀ later u more, (machine stopLibrary ownerDeployment).run q later = some (u, more) →
      RejectsIngress more) ↔ ¬ AcceptWindow ownerDeployment p) := by
  obtain ⟨p, q, hr, hs⟩ := stop_request_run
  exact ⟨p, q, hs, later_ingress_rejected_iff hr hs⟩

/-- The main thread polls the flag; the stop is stored and acknowledged; then a client
connects, is accepted and has its submission forwarded. -/
def lateEvents : List ProcessEvent :=
  .ingress (.main (.poll false)) :: stopRequestEvents ++
    [.server .ask, .server (.write (.bytes 5)), .ingress (.client (.connect 0 ⟨⟨1000⟩⟩)),
      .ingress (.client (.write 0 (frameBytes 0))), .ingress (.main .accept),
      .ingress (.main (.credentials true)), .ingress (.main (.read (.bytes 4))),
      .ingress (.main (.read .check)), .ingress (.main (.stamp 0)), .ingress (.main .connect),
      .ingress (.main (.write (.bytes 5)))]

def lateLog : List ProcessAction :=
  [.handled 0 .gracefulStopRequest, .replied 0 acknowledgement,
    .ingress (.connected 0 0 ⟨⟨1000⟩⟩), .ingress (.accepted 0),
    .ingress (.forwarded 0 (frameBytes 1))]

theorem late_connection_forwarded : ∃ p,
    (machine stopLibrary ownerDeployment).run (initial ownerDeployment .ready) lateEvents =
      some (p, lateLog) ∧ ¬ RejectsIngress lateLog := by
  refine ⟨_, rfl, fun h => ?_⟩
  have hp : Precedes lateLog (.replied 0 acknowledgement)
      (.ingress (.connected 0 0 ⟨⟨1000⟩⟩)) := precedes_adjacent [_] [_, _] _ _
  exact h.2 0 0 0 ⟨⟨1000⟩⟩ (frameBytes 1) hp (by simp [lateLog])

end PersonaMessage.ProcessMachine
