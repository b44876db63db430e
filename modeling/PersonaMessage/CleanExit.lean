import PersonaMessage.IngressSerial
import PersonaMessage.ProcessStop

/-! What it means that the process has ended without an error. -/
namespace PersonaMessage.ProcessMachine
open ByteStream SignalFrames FrameProgress RouterCodec DaemonStamping DaemonConnection
  ConnectionFaults Transitions IngressMachine Supervision TableLibrary

/-- The main thread neither stops the root nor has returned without an error. -/
def GoesOn (phase : MainPhase) : Prop := phase ≠ .stopping ∧ phase ≠ .exited (.ok ())

variable {lib : SupervisionLibrary} {d : Deployment} {log out : List ProcessAction}
  {actions : List Action} {p q : Process} {s t : Ingress} {c : ConnId}

theorem goesOn_error (e : Error) : GoesOn (.exited (.error e)) := ⟨by simp, by simp⟩

theorem goesOn_current {phase : MainPhase} (h : phase.current = some c) : GoesOn phase := by
  cases phase <;> simp [MainPhase.current, GoesOn] at h ⊢

theorem goesOn_startReply (d : Deployment) (s : Ingress) (c : ConnId)
    (received : ReceivedMessageRequest) (reply : MessageReply) :
    GoesOn (s.startReply d c received reply).phase := by
  unfold Ingress.startReply
  split
  · exact goesOn_error _
  · exact goesOn_current rfl

theorem goesOn_stepReadRequest {ingress : MessageIngressContext} {got : Bytes} {event : ReadEvent}
    (h : stepReadRequest d s c ingress got event = some t) : GoesOn t.phase := by
  unfold stepReadRequest at h
  split at h
  · cases h
  · obtain rfl := Option.some.inj h
    exact goesOn_current rfl
  · obtain rfl := Option.some.inj h
    exact goesOn_error _
  · split at h
    · obtain rfl := Option.some.inj h
      exact goesOn_error _
    · obtain rfl := Option.some.inj h
      exact goesOn_current rfl

theorem goesOn_stepStamp (d : Deployment) (s : Ingress) (c : ConnId)
    (ingress : MessageIngressContext) (received : ReceivedMessageRequest) (now : ℤ) :
    GoesOn (stepStamp d s c ingress received now).phase := by
  unfold stepStamp
  split
  · exact goesOn_error _
  · exact goesOn_current rfl
  · exact goesOn_startReply ..

theorem goesOn_stepConnect {received : ReceivedMessageRequest} {image : MessageRequest}
    (h : stepConnect d s c received image = some t) : GoesOn t.phase := by
  unfold stepConnect at h
  split at h
  · obtain rfl := Option.some.inj h
    exact goesOn_error _
  · cases h
  · split at h
    · obtain rfl := Option.some.inj h
      exact goesOn_error _
    · obtain rfl := Option.some.inj h
      exact goesOn_current rfl

theorem goesOn_stepSubmit {received : ReceivedMessageRequest} {rest : Bytes} {event : WriteEvent}
    (h : stepSubmit d s c received rest event = some (t, actions)) : GoesOn t.phase := by
  unfold stepSubmit at h
  split at h
  · cases h
  all_goals obtain ⟨rfl, rfl⟩ := Prod.mk.inj (Option.some.inj h)
  · exact goesOn_error _
  · exact goesOn_current rfl
  · exact goesOn_current rfl

theorem goesOn_stepAwait {received : ReceivedMessageRequest} {got : Bytes} {event : ReadEvent}
    (h : stepAwait d s c received got event = some (t, actions)) : GoesOn t.phase := by
  unfold stepAwait at h
  split at h
  · cases h
  · obtain ⟨rfl, rfl⟩ := Prod.mk.inj (Option.some.inj h)
    exact goesOn_current rfl
  · obtain ⟨rfl, rfl⟩ := Prod.mk.inj (Option.some.inj h)
    exact goesOn_error _
  · split at h
    · obtain ⟨rfl, rfl⟩ := Prod.mk.inj (Option.some.inj h)
      exact goesOn_error _
    · obtain ⟨rfl, rfl⟩ := Prod.mk.inj (Option.some.inj h)
      exact goesOn_startReply ..

theorem goesOn_stepReply {rest : Bytes} {event : WriteEvent}
    (h : stepReply d s c rest event = some (t, actions)) : GoesOn t.phase := by
  unfold stepReply at h
  split at h
  · cases h
  all_goals obtain ⟨rfl, rfl⟩ := Prod.mk.inj (Option.some.inj h)
  · exact goesOn_error _
  · exact ⟨by simp [Ingress.setStream, Ingress.setConnection],
      by simp [Ingress.setStream, Ingress.setConnection]⟩
  · exact goesOn_current rfl

theorem goesOn_stepScan (d : Deployment) (s : Ingress) (k : ℕ) :
    GoesOn (stepScan d s k).1.phase := by
  unfold stepScan
  split
  · exact ⟨by simp, by simp⟩
  · split
    · exact ⟨by simp, by simp⟩
    · exact goesOn_current rfl

/-- The main thread goes on from every step but a poll that sees the flag and the stop itself. -/
theorem stepMain_goesOn {event : MainEvent} (h : stepMain d s event = some (t, actions))
    (hpoll : event ≠ .poll true) (hstop : s.phase ≠ .stopping) : GoesOn t.phase := by
  unfold stepMain at h
  split at h
  · next stop hp =>
    obtain ⟨rfl, rfl⟩ := Prod.mk.inj (Option.some.inj h)
    cases stop with
    | true => exact absurd rfl hpoll
    | false => exact ⟨by simp, by simp⟩
  · obtain ⟨rfl, rfl⟩ := Prod.mk.inj (Option.some.inj h)
    exact goesOn_stepScan ..
  · split_ifs at h
    obtain ⟨rfl, rfl⟩ := Prod.mk.inj (Option.some.inj h)
    exact goesOn_error _
  · obtain ⟨rfl, rfl⟩ := Prod.mk.inj (Option.some.inj h)
    exact ⟨by simp, by simp⟩
  · split_ifs at h
    · obtain ⟨rfl, rfl⟩ := Prod.mk.inj (Option.some.inj h)
      exact goesOn_current rfl
    · obtain ⟨rfl, rfl⟩ := Prod.mk.inj (Option.some.inj h)
      exact goesOn_error _
  · obtain ⟨u, hu, he⟩ := Option.map_eq_some_iff.mp h
    obtain ⟨rfl, rfl⟩ := Prod.mk.inj he
    exact goesOn_stepReadRequest hu
  · obtain ⟨rfl, rfl⟩ := Prod.mk.inj (Option.some.inj h)
    exact goesOn_stepStamp ..
  · obtain ⟨rfl, rfl⟩ := Prod.mk.inj (Option.some.inj h)
    exact goesOn_error _
  · obtain ⟨u, hu, he⟩ := Option.map_eq_some_iff.mp h
    obtain ⟨rfl, rfl⟩ := Prod.mk.inj he
    exact goesOn_stepConnect hu
  · exact goesOn_stepSubmit h
  · exact goesOn_stepAwait h
  · exact goesOn_stepReply h
  · next hp => exact absurd hp hstop
  · cases h

/-- The root is stopped, and `run` returns without an error, only after the flag was set. -/
def StopSeen (p : Process) : Prop :=
  GoesOn p.ingress.phase ∨ p.supervisor.stopRequested = true

theorem stopSeen_step {event : ProcessEvent} (hi : ServerInv lib log p.supervisor)
    (h : StopSeen p) (hs : step lib d p event = some (q, out)) : StopSeen q := by
  have hi' := serverInv_step hi hs
  have hstays : p.supervisor.stopRequested = true → StopSeen q := by
    intro hf
    obtain ⟨c, hc⟩ := hi.flag.mp hf
    exact Or.inr (hi'.flag.mpr ⟨c, List.mem_append_left _ hc⟩)
  rcases h with hg | hf
  · rcases (step_cases hs).2 with ⟨e, ingress, actions, rfl, ha, hs', rfl, _⟩ |
      ⟨e, supervisor, rfl, hs', rfl⟩ | ⟨e, supervisor, rfl, hs', rfl, _⟩
    · by_cases hm : ∃ e', e = .main e'
      · obtain ⟨e', rfl⟩ := hm
        by_cases hpoll : e' = .poll true
        · subst hpoll
          have hf : true = p.supervisor.stopRequested := by simpa [admits] using ha
          exact hstays hf.symm
        · exact Or.inl (stepMain_goesOn (step_main hs') hpoll hg.1)
      · have hphase := (step_environment hs' fun e' he => hm ⟨e', he⟩).2
        exact Or.inl (hphase ▸ hg)
    · exact Or.inl hg
    · exact Or.inl hg
  · exact hstays hf

theorem stopSeen_run {listen : RouterListener} {events : List ProcessEvent}
    (hr : (machine lib d).run (initial d listen) events = some (p, log)) : StopSeen p := by
  have h := @Machine.run_invariant _ _ _ (machine lib d)
    (fun log p => ServerInv lib log p.supervisor ∧ StopSeen p)
    (fun h hs => ⟨serverInv_step h.1 hs, stopSeen_step h.1 h.2 hs⟩) _ _ _ _
    ⟨serverInv_initial lib d listen, Or.inl ⟨by simp [initial, IngressMachine.initial],
      by simp [initial, IngressMachine.initial]⟩⟩ hr
  exact h.2

/-- A visit that went well has written its reply. -/
theorem handle_ok {lib : MessageLibrary} {root : MessageDaemonRoot} {visit : FaultyVisit}
    (h : (handle lib root visit).result = .ok ()) :
    ∃ wire, (handle lib root visit).replied = some wire := by
  unfold handle at h ⊢
  split at h
  · cases h
  · split at h
    · cases h
    · split at h
      · cases h
      · dsimp only at h ⊢
        split at h
        · cases h
        · split at h
          · cases h
          · split at h
            · cases h
            · exact ⟨_, rfl⟩

theorem serveAll_replied {lib : MessageLibrary} {start root : MessageDaemonRoot}
    {visits : List FaultyVisit} {handled : List Handled}
    (h : serveAll lib start visits = (handled, .ok root)) :
    ∀ one ∈ handled, ∃ wire, one.replied = some wire := by
  induction visits generalizing start handled with
  | nil =>
    obtain ⟨rfl, _⟩ := Prod.mk.inj h
    exact List.forall_mem_nil _
  | cons first visits ih =>
    cases hr : (handle lib start first).result with
    | error e =>
      simp only [serveAll, hr] at h
      cases (Prod.mk.inj h).2
    | ok u =>
      simp only [serveAll, hr] at h
      obtain ⟨rfl, hroot⟩ := Prod.mk.inj h
      exact List.forall_mem_cons.mpr ⟨handle_ok hr, ih (Prod.ext rfl hroot)⟩

/-- Where every visit went well, each connection that was accepted got its reply. -/
theorem transcript_replied {lib : MessageLibrary} {start root : MessageDaemonRoot}
    {visits : List (ConnId × FaultyVisit)} {past : List Action}
    (h : transcript lib start visits = (past, .ok root)) (hc : .accepted c ∈ past) :
    ∃ wire, .replied c wire ∈ past := by
  obtain ⟨hpast, hroot⟩ := Prod.mk.inj h
  subst hpast
  obtain ⟨⟨c', one⟩, hmem, htrace⟩ := List.mem_flatMap.mp hc
  obtain ⟨wire, hw⟩ := serveAll_replied (Prod.ext rfl hroot) one (List.of_mem_zip hmem).2
  obtain rfl : c = c' := by simpa [trace] using htrace
  refine ⟨wire, List.mem_flatMap.mpr ⟨⟨c, one⟩, hmem, ?_⟩⟩
  simp [trace, hw]

/-- `run` returns without an error only after a stop was handled, with every connection that it
ever accepted answered in full. -/
theorem clean_exit {listen : RouterListener} {events : List ProcessEvent}
    (hr : (machine lib d).run (initial d listen) events = some (p, log))
    (hx : p.ingress.phase = .exited (.ok ())) :
    (∃ c, .handled c .gracefulStopRequest ∈ log) ∧
      ∀ c, .ingress (.accepted c) ∈ log → ∃ wire, .ingress (.replied c wire) ∈ log := by
  constructor
  · rcases stopSeen_run hr with hg | hf
    · exact absurd hx hg.2
    · exact (processInv_run hr).server.flag.mp hf
  · intro c hc
    have hmem : ∀ a, a ∈ log.filterMap ingressAction → .ingress a ∈ log := by
      intro a ha
      obtain ⟨b, hb, he⟩ := List.mem_filterMap.mp ha
      cases b <;> simp only [ingressAction, reduceCtorEq, Option.some.injEq] at he
      exact he ▸ hb
    have hc' : .accepted c ∈ log.filterMap ingressAction := List.mem_filterMap.mpr ⟨_, hc, rfl⟩
    have hserved : .accepted c ∈ served (log.filterMap ingressAction) :=
      List.mem_filter.mpr ⟨hc', rfl⟩
    obtain ⟨visits, h⟩ := serialised_run (run_ingress hr)
    cases h with
    | running exited _ =>
      rw [hx] at exited
      cases exited
    | returned exited visited returned =>
      have hresult := MainPhase.exited.inj (exited.symm.trans hx)
      subst hresult
      generalize hok : (.ok () : Result Unit) = result at returned
      cases returned with
      | stopped outcome past =>
        obtain ⟨wire, hw⟩ := transcript_replied past hserved
        exact ⟨wire, hmem _ (List.mem_filter.mp hw).1⟩
      | acceptFailed => cases hok
      | connectionFailed => cases hok

/-- The owner's submission is served, and then the daemon is asked to stop. -/
def servedStopEvents : List ProcessEvent :=
  submissionEvents.map .ingress ++ earlyExitEvents ++ [stopRootEvent]

theorem served_stop_run : ∃ p log,
    (machine stopLibrary ownerDeployment).run (initial ownerDeployment .ready) servedStopEvents =
      some (p, log) ∧
    p.ingress.phase = .exited (.ok ()) := ⟨_, _, rfl, rfl⟩

theorem served_stop_clean : ∃ p log,
    (machine stopLibrary ownerDeployment).run (initial ownerDeployment .ready) servedStopEvents =
      some (p, log) ∧
    (∃ c, .handled c .gracefulStopRequest ∈ log) ∧
      ∀ c, .ingress (.accepted c) ∈ log → ∃ wire, .ingress (.replied c wire) ∈ log := by
  obtain ⟨p, log, hr, hx⟩ := served_stop_run
  exact ⟨p, log, hr, clean_exit hr hx⟩

end PersonaMessage.ProcessMachine
