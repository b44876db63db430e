import PersonaMessage.ProcessMachine

/-! What holds of every run of the process: its ingress half is a run of the accept loop,
and the supervision thread is past its loop exactly when the flag is set. -/
namespace PersonaMessage.ProcessMachine
open ByteStream SignalFrames FrameProgress DaemonStamping Transitions IngressMachine Supervision
  SupervisionFrameCodec

/-- A request that some bytes decode to. -/
def Readable (lib : SupervisionLibrary) (received : ReceivedSupervisionRequest) : Prop :=
  ∃ bytes frame, lib.decodeLengthPrefixed bytes = .ok frame ∧
    requestFromFrame lib frame = .ok received

/-- The acknowledgement is a small fixed record: for a request that could be read, its
encoding does not fail. -/
def AcknowledgementEncodes (lib : SupervisionLibrary) : Prop :=
  ∀ received, Readable lib received →
    ∃ bytes, writeReply lib received.exchange received.verb acknowledgement = .ok bytes

/-- Where the supervision thread can be, given the flag and the history. -/
def ServerAt (lib : SupervisionLibrary) (log : List ProcessAction) (v : Supervisor) :
    ServerPhase → Prop
  | .polling => True
  | .checking _ => True
  | .finished => v.stopRequested = true
  | .asking _ received => v.stopRequested = false ∧ Readable lib received
  | .replying c reply rest => rest ≠ [] ∧
      (v.stopRequested = true → reply = acknowledgement ∧
        .handled c .gracefulStopRequest ∈ log ∧ .replied c acknowledgement ∉ log) ∧
      (v.stopRequested = false → reply ≠ acknowledgement)
  | _ => v.stopRequested = false

structure ServerInv (lib : SupervisionLibrary) (log : List ProcessAction) (v : Supervisor) :
    Prop where
  place : ServerAt lib log v v.phase
  flag : v.stopRequested = true ↔ ∃ c, .handled c .gracefulStopRequest ∈ log
  acknowledged : ∀ c, .replied c acknowledgement ∈ log → .handled c .gracefulStopRequest ∈ log
  owed : AcknowledgementEncodes lib → ∀ c, .handled c .gracefulStopRequest ∈ log →
    .replied c acknowledgement ∈ log ∨ (∃ rest, v.phase = .replying c acknowledgement rest) ∨
      (v.connections c).stream.closed = true
  unopened : ∀ c, v.opened ≤ c → (v.connections c).stream.closed = false

variable {lib : SupervisionLibrary} {capacity : ℕ} {d : Deployment} {log out : List ProcessAction}
  {v w : Supervisor}

/-- Every connection is closed in the one state exactly when it is in the other. -/
def SameClosed (v w : Supervisor) : Prop :=
  w.opened = v.opened ∧
    ∀ c, (w.connections c).stream.closed = (v.connections c).stream.closed

theorem sameClosed_setStream {c : ConnId} {stream : Duplex}
    (hs : stream.closed = (v.connections c).stream.closed) :
    SameClosed v (v.setStream c stream) := by
  refine ⟨rfl, fun c' => ?_⟩
  by_cases hc : c' = c
  · subst hc
    simpa [Supervisor.setStream] using hs
  · simp [Supervisor.setStream, hc]

/-- A step that neither runs the handler nor ends a write: flag and history stay. -/
theorem ServerInv.move (hi : ServerInv lib log v) (hflag : w.stopRequested = v.stopRequested)
    (hclosed : SameClosed v w)
    (hphase : ∀ c rest, v.phase = .replying c acknowledgement rest →
      (∃ rest, w.phase = .replying c acknowledgement rest) ∨
        (v.connections c).stream.closed = true)
    (hplace : ServerAt lib log w w.phase) : ServerInv lib log w := by
  refine ⟨hplace, hflag ▸ hi.flag, hi.acknowledged, fun hl c hc => ?_, fun c hc => ?_⟩
  · rw [hclosed.2 c]
    rcases hi.owed hl c hc with hr | ⟨rest, hp⟩ | hcl
    · exact Or.inl hr
    · exact Or.inr (hphase c rest hp)
    · exact Or.inr (Or.inr hcl)
  · rw [hclosed.2 c]
    exact hi.unopened c (hclosed.1 ▸ hc)

/-- The same from a phase in which no reply is being written. -/
theorem ServerInv.turn (hi : ServerInv lib log v)
    (hn : ∀ c reply rest, v.phase ≠ .replying c reply rest)
    (hflag : w.stopRequested = v.stopRequested) (hclosed : SameClosed v w)
    (hplace : ServerAt lib log w w.phase) : ServerInv lib log w :=
  hi.move hflag hclosed (fun c rest h => absurd h (hn c _ rest)) hplace

theorem SameClosed.refl (v : Supervisor) : SameClosed v v := ⟨rfl, fun _ => rfl⟩

theorem inv_stepAccept (hi : ServerInv lib log v) (hp : v.phase = .accepting) :
    ServerInv lib log (stepAccept v) := by
  have hplace := hi.place
  rw [hp] at hplace
  have hn : ∀ c reply rest, v.phase ≠ .replying c reply rest := by simp [hp]
  unfold stepAccept
  split
  · exact hi.turn hn rfl (.refl v) hplace
  · next c hw =>
    refine hi.turn hn rfl ⟨rfl, fun c' => ?_⟩ hplace
    by_cases hc : c' = c
    · subst hc
      simp
    · simp [hc]

theorem inv_stepServerRead {c : ConnId} {got : Bytes} {event : ReadEvent}
    (hi : ServerInv lib log v) (hp : v.phase = .reading c got)
    (hs : stepServerRead lib v c got event = some w) : ServerInv lib log w := by
  have hplace := hi.place
  rw [hp] at hplace
  have hn : ∀ c reply rest, v.phase ≠ .replying c reply rest := by simp [hp]
  unfold stepServerRead at hs
  split at hs
  · cases hs
  · next stream got' hr =>
    obtain rfl := Option.some.inj hs
    obtain ⟨_, _, _, _, hcl, _⟩ := readStep_more hr
    exact hi.turn hn rfl (sameClosed_setStream hcl) hplace
  · obtain rfl := Option.some.inj hs
    exact hi.turn hn rfl (.refl v) trivial
  · next frame hr =>
    split at hs
    · obtain rfl := Option.some.inj hs
      exact hi.turn hn rfl (.refl v) trivial
    · next received ha =>
      obtain rfl := Option.some.inj hs
      exact hi.turn hn rfl (.refl v) ⟨hplace, got, frame, (readStep_ok hr).2, ha⟩

/-- While a request is being handled the flag is not set. -/
theorem ServerInv.unset (hi : ServerInv lib log v) {c : ConnId}
    {received : ReceivedSupervisionRequest} (hp : v.phase = .asking c received) :
    v.stopRequested = false := by
  have hplace := hi.place
  rw [hp] at hplace
  exact hplace.1

/-- So no stop request has been processed before it. -/
theorem ServerInv.unhandled (hi : ServerInv lib log v) {c : ConnId}
    {received : ReceivedSupervisionRequest} (hp : v.phase = .asking c received) (c' : ConnId) :
    .handled c' .gracefulStopRequest ∉ log := by
  intro hm
  have hf := hi.flag.mpr ⟨c', hm⟩
  rw [hi.unset hp] at hf
  cases hf

theorem reply_acknowledgement (actor : SupervisionPhase) (request : SupervisionRequest) :
    (actor.reply request).2.2 = acknowledgement ↔ request = .gracefulStopRequest := by
  cases request <;> simp [SupervisionPhase.reply, acknowledgement]

/-- After the handler the thread writes the reply, or gives up a reply that does not encode. -/
theorem stepAsk_place {c : ConnId} {received : ReceivedSupervisionRequest}
    (hset : (stepAsk lib v c received).stopRequested = true →
      received.request = .gracefulStopRequest ∧ .handled c .gracefulStopRequest ∈ log ∧
        .replied c acknowledgement ∉ log)
    (hunset : (stepAsk lib v c received).stopRequested = false →
      received.request ≠ .gracefulStopRequest) :
    ServerAt lib log (stepAsk lib v c received) (stepAsk lib v c received).phase := by
  have hreply := reply_acknowledgement v.actor received.request
  cases hb : writeReply lib received.exchange received.verb
      (v.actor.reply received.request).2.2 with
  | error e =>
    have hp : (stepAsk lib v c received).phase = .polling := by simp only [stepAsk, hb]
    rw [hp]
    trivial
  | ok bytes =>
    have hp : (stepAsk lib v c received).phase =
        .replying c (v.actor.reply received.request).2.2 bytes := by simp only [stepAsk, hb]
    rw [hp]
    refine ⟨lib.encode_ne_nil (writeReply_ok hb), fun ht => ?_, fun hf => ?_⟩
    · obtain ⟨hr, hrest⟩ := hset ht
      exact ⟨hreply.mpr hr, hrest⟩
    · exact hreply.not.mpr (hunset hf)

/-- Any other request leaves the flag and the acknowledgements alone. -/
theorem inv_stepAsk_other {c : ConnId} {received : ReceivedSupervisionRequest}
    (hi : ServerInv lib log v) (hp : v.phase = .asking c received)
    (hr : received.request ≠ .gracefulStopRequest) :
    ServerInv lib (log ++ [.handled c received.request]) (stepAsk lib v c received) := by
  have hplace : v.stopRequested = false := hi.unset hp
  have hnone : ∀ c', .handled c' .gracefulStopRequest ∉ log ++ [.handled c received.request] := by
    intro c' hm
    rcases List.mem_append.mp hm with hm | hm
    · exact hi.unhandled hp c' hm
    · simp only [List.mem_singleton, ProcessAction.handled.injEq] at hm
      exact hr hm.2.symm
  have hstop : (v.actor.reply received.request).2.1 = false := by
    simpa using (reply_stop_iff v.actor received.request).not.mpr hr
  have hflag : (stepAsk lib v c received).stopRequested = false := by
    simp [stepAsk, hplace, hstop]
  refine ⟨?_, ?_, ?_, fun _ c' hc => absurd hc (hnone c'), hi.unopened⟩
  · refine stepAsk_place (fun ht => ?_) fun _ => hr
    rw [hflag] at ht
    cases ht
  · rw [hflag]
    constructor
    · intro h
      cases h
    · rintro ⟨c', hc⟩
      exact absurd hc (hnone c')
  · intro c' hc
    rcases List.mem_append.mp hc with hc | hc
    · exact List.mem_append_left _ (hi.acknowledged c' hc)
    · simp at hc

/-- The handler of a stop request stores the flag and owes its acknowledgement. -/
theorem inv_stepAsk_stop {c : ConnId} {received : ReceivedSupervisionRequest}
    (hi : ServerInv lib log v) (hp : v.phase = .asking c received)
    (hr : received.request = .gracefulStopRequest) :
    ServerInv lib (log ++ [.handled c received.request]) (stepAsk lib v c received) := by
  have hnone := hi.unhandled hp
  have hmem : .handled c .gracefulStopRequest ∈ log ++ [.handled c received.request] := by
    simp [hr]
  have hflag : (stepAsk lib v c received).stopRequested = true := by
    simp [stepAsk, hr, SupervisionPhase.reply]
  refine ⟨?_, ⟨fun _ => ⟨c, hmem⟩, fun _ => hflag⟩, ?_, fun hl c' hc => ?_, hi.unopened⟩
  · refine stepAsk_place (fun _ => ⟨hr, hmem, fun hm => ?_⟩) fun hf => ?_
    · rcases List.mem_append.mp hm with hm | hm
      · exact hnone c (hi.acknowledged c hm)
      · simp at hm
    · rw [hflag] at hf
      cases hf
  · intro c' hc
    rcases List.mem_append.mp hc with hc | hc
    · exact absurd (hi.acknowledged c' hc) (hnone c')
    · simp at hc
  · obtain rfl : c' = c := by
      rcases List.mem_append.mp hc with hc | hc
      · exact absurd hc (hnone c')
      · simp only [List.mem_singleton, ProcessAction.handled.injEq] at hc
        exact hc.1
    have hplace := hi.place
    rw [hp] at hplace
    obtain ⟨bytes, hb⟩ := hl received hplace.2
    have hrep := (reply_acknowledgement v.actor received.request).mpr hr
    refine Or.inr (Or.inl ⟨bytes, ?_⟩)
    simp only [stepAsk, hrep, hb]

theorem inv_stepServerWrite {c : ConnId} {reply : SupervisionReply} {rest : Bytes}
    {event : WriteEvent} (hi : ServerInv lib log v) (hp : v.phase = .replying c reply rest)
    (hs : stepServerWrite capacity v c reply rest event = some (w, out)) :
    ServerInv lib (log ++ out) w := by
  have hplace := hi.place
  rw [hp] at hplace
  obtain ⟨hne, hstop, hrun⟩ := hplace
  unfold stepServerWrite at hs
  split at hs
  · cases hs
  · next e he =>
    obtain ⟨rfl, rfl⟩ := Prod.mk.inj (Option.some.inj hs)
    rw [List.append_nil]
    refine hi.move rfl (.refl v) (fun c' rest' h => Or.inr ?_) trivial
    rw [hp] at h
    obtain ⟨rfl, _, _⟩ := ServerPhase.replying.inj h
    exact writeStep_error he
  · next stream he =>
    obtain ⟨rfl, rfl⟩ := Prod.mk.inj (Option.some.inj hs)
    obtain ⟨ho, hcl⟩ := sameClosed_setStream (writeStep_closed he)
    have hmono : ∀ c' request, .handled c' request ∈ log ++ [.replied c reply] ↔
        .handled c' request ∈ log := by simp
    refine ⟨trivial, ?_, ?_, fun hl c' hc => ?_, fun c' hc => (hcl c').trans (hi.unopened c' hc)⟩
    · simp only [hmono]
      exact hi.flag
    · intro c' hc
      rw [hmono]
      rcases List.mem_append.mp hc with hc | hc
      · exact hi.acknowledged c' hc
      · simp only [List.mem_singleton, ProcessAction.replied.injEq] at hc
        obtain ⟨rfl, rfl⟩ := hc
        have hset : v.stopRequested = true := by
          by_contra hf
          exact hrun (by simpa using hf) rfl
        exact (hstop hset).2.1
    · rw [hmono] at hc
      rcases hi.owed hl c' hc with hr | ⟨rest', hp'⟩ | hclosed
      · exact Or.inl (List.mem_append_left _ hr)
      · rw [hp] at hp'
        obtain ⟨rfl, rfl, _⟩ := ServerPhase.replying.inj hp'
        exact Or.inl (by simp)
      · exact Or.inr (Or.inr ((hcl c').trans hclosed))
  · next stream rest' hnil he =>
    obtain ⟨rfl, rfl⟩ := Prod.mk.inj (Option.some.inj hs)
    rw [List.append_nil]
    refine hi.move rfl (sameClosed_setStream (writeStep_closed he))
      (fun c' rest'' h => Or.inl ?_) ⟨hnil, hstop, hrun⟩
    rw [hp] at h
    obtain ⟨rfl, rfl, _⟩ := ServerPhase.replying.inj h
    exact ⟨rest', rfl⟩

theorem inv_stepServer {event : ServerEvent} (hi : ServerInv lib log v)
    (hs : stepServer lib capacity v event = some (w, out)) : ServerInv lib (log ++ out) w := by
  have hplace := hi.place
  unfold stepServer at hs
  split at hs
  · next hp =>
    obtain ⟨rfl, rfl⟩ := Prod.mk.inj (Option.some.inj hs)
    rw [List.append_nil]
    refine hi.turn (by simp [hp]) rfl (.refl v) ?_
    cases v.stopRequested <;> rfl
  · next hp =>
    obtain ⟨rfl, rfl⟩ := Prod.mk.inj (Option.some.inj hs)
    rw [List.append_nil]
    exact inv_stepAccept hi hp
  · next e hp =>
    split_ifs at hs
    obtain ⟨rfl, rfl⟩ := Prod.mk.inj (Option.some.inj hs)
    rw [List.append_nil]
    exact hi.turn (by simp [hp]) rfl (.refl v) trivial
  · next hp =>
    obtain ⟨rfl, rfl⟩ := Prod.mk.inj (Option.some.inj hs)
    rw [List.append_nil]
    exact hi.turn (by simp [hp]) rfl (.refl v) trivial
  · next c got event hp =>
    obtain ⟨u, hu, he⟩ := Option.map_eq_some_iff.mp hs
    obtain ⟨rfl, rfl⟩ := Prod.mk.inj he
    rw [List.append_nil]
    exact inv_stepServerRead hi hp hu
  · next c received hp =>
    obtain ⟨rfl, rfl⟩ := Prod.mk.inj (Option.some.inj hs)
    by_cases hr : received.request = .gracefulStopRequest
    · exact inv_stepAsk_stop hi hp hr
    · exact inv_stepAsk_other hi hp hr
  · next hp =>
    obtain ⟨rfl, rfl⟩ := Prod.mk.inj (Option.some.inj hs)
    rw [List.append_nil]
    exact hi.turn (by simp [hp]) rfl (.refl v) trivial
  · next c reply rest event hp => exact inv_stepServerWrite hi hp hs
  · next c hp =>
    obtain ⟨rfl, rfl⟩ := Prod.mk.inj (Option.some.inj hs)
    rw [List.append_nil]
    refine hi.turn (by simp [hp]) rfl (.refl v) ?_
    cases v.stopRequested
    · rfl
    · trivial
  · cases hs

/-- The place of the thread depends on its flag and on what has been written to whom. -/
theorem ServerAt.congr {phase : ServerPhase} (h : ServerAt lib log v phase)
    (hf : w.stopRequested = v.stopRequested) : ServerAt lib log w phase := by
  cases phase with
  | polling | checking => trivial
  | _ =>
    simp only [ServerAt, hf] at h ⊢
    exact h

theorem inv_peerConnect (hi : ServerInv lib log v) :
    ServerInv lib log { v with
      opened := v.opened+1
      connections := Function.update v.connections v.opened ⟨.fresh, true⟩ } := by
  refine ⟨hi.place.congr rfl, hi.flag, hi.acknowledged, fun hl c hc => ?_, fun c hc => ?_⟩
  · rcases hi.owed hl c hc with hr | hp | hcl
    · exact Or.inl hr
    · exact Or.inr (Or.inl hp)
    · have hne : c ≠ v.opened := by
        rintro rfl
        rw [hi.unopened _ le_rfl] at hcl
        cases hcl
      exact Or.inr (Or.inr (by simpa [hne] using hcl))
  · have hb : v.opened+1 ≤ c := hc
    have hne : c ≠ v.opened := by omega
    simpa [hne] using hi.unopened c (by omega)

theorem inv_peerClose {c : ConnId} (hi : ServerInv lib log v) (hb : c < v.opened) :
    ServerInv lib log (v.setStream c (v.connections c).stream.peerClose) := by
  have hclosed : ∀ c', (v.connections c').stream.closed = true →
      ((v.setStream c (v.connections c).stream.peerClose).connections c').stream.closed =
        true := by
    intro c' h
    by_cases hc : c' = c
    · subst hc
      simp [Supervisor.setStream, Duplex.peerClose]
    · simpa [Supervisor.setStream, hc] using h
  refine ⟨hi.place.congr rfl, hi.flag, hi.acknowledged, fun hl c' hc => ?_, fun c' hc => ?_⟩
  · rcases hi.owed hl c' hc with hr | hp | hcl
    · exact Or.inl hr
    · exact Or.inr (Or.inl hp)
    · exact Or.inr (Or.inr (hclosed c' hcl))
  · have hle : v.opened ≤ c' := hc
    have hne : c' ≠ c := (lt_of_lt_of_le hb hle).ne'
    simpa [Supervisor.setStream, hne] using hi.unopened c' hle

theorem inv_stepPeer {event : PeerEvent} (hi : ServerInv lib log v)
    (hs : stepPeer v event = some w) : ServerInv lib log w := by
  cases event with
  | connect =>
    obtain rfl := Option.some.inj hs
    exact inv_peerConnect hi
  | write c bytes =>
    simp only [stepPeer] at hs
    split_ifs at hs
    obtain rfl := Option.some.inj hs
    exact hi.move rfl (sameClosed_setStream rfl) (fun c rest h => Or.inl ⟨rest, h⟩)
      (hi.place.congr rfl)
  | read c count =>
    simp only [stepPeer] at hs
    split_ifs at hs
    obtain rfl := Option.some.inj hs
    exact hi.move rfl (sameClosed_setStream rfl) (fun c rest h => Or.inl ⟨rest, h⟩)
      (hi.place.congr rfl)
  | close c =>
    simp only [stepPeer] at hs
    split_ifs at hs with hb
    obtain rfl := Option.some.inj hs
    exact inv_peerClose hi hb

/-- The steps of the other thread and of its clients leave the history of this one alone. -/
theorem ServerInv.other (hi : ServerInv lib log v) (actions : List Action) :
    ServerInv lib (log ++ actions.map .ingress) v := by
  have hh : ∀ c request, .handled c request ∈ log ++ actions.map ProcessAction.ingress ↔
      .handled c request ∈ log := by simp
  have hr : ∀ c reply, .replied c reply ∈ log ++ actions.map ProcessAction.ingress ↔
      .replied c reply ∈ log := by simp
  refine ⟨?_, ?_, ?_, ?_, hi.unopened⟩
  · have hplace := hi.place
    cases hp : v.phase with
    | polling | checking => trivial
    | _ =>
      rw [hp] at hplace
      simp only [ServerAt, hh, hr] at hplace ⊢
      exact hplace
  · simp only [hh]
    exact hi.flag
  · simp only [hh, hr]
    exact hi.acknowledged
  · simp only [hh, hr]
    exact hi.owed

/-- The two halves of the process, each with its own part of the history. -/
structure ProcessInv (lib : SupervisionLibrary) (d : Deployment) (log : List ProcessAction)
    (p : Process) : Prop where
  ingress : Inv d (log.filterMap ingressAction) p.ingress
  server : ServerInv lib log p.supervisor

theorem stepServer_silent {event : ServerEvent}
    (hs : stepServer lib capacity v event = some (w, out)) : out.filterMap ingressAction = [] := by
  unfold stepServer at hs
  split at hs
  all_goals try
    obtain ⟨rfl, rfl⟩ := Prod.mk.inj (Option.some.inj hs)
    rfl
  · split_ifs at hs
    obtain ⟨rfl, rfl⟩ := Prod.mk.inj (Option.some.inj hs)
    rfl
  · obtain ⟨u, hu, he⟩ := Option.map_eq_some_iff.mp hs
    obtain ⟨rfl, rfl⟩ := Prod.mk.inj he
    rfl
  · unfold stepServerWrite at hs
    split at hs
    · cases hs
    all_goals
      obtain ⟨rfl, rfl⟩ := Prod.mk.inj (Option.some.inj hs)
      rfl
  · cases hs

theorem serverInv_step {p q : Process} {event : ProcessEvent}
    (hi : ServerInv lib log p.supervisor) (hs : step lib d p event = some (q, out)) :
    ServerInv lib (log ++ out) q.supervisor := by
  rcases (step_cases hs).2 with ⟨e, ingress, actions, rfl, _, _, rfl, rfl⟩ |
    ⟨e, supervisor, rfl, hs', rfl⟩ | ⟨e, supervisor, rfl, hs', rfl, rfl⟩
  · exact hi.other actions
  · exact inv_stepServer hi hs'
  · rw [List.append_nil]
    exact inv_stepPeer hi hs'

/-- The ingress half of a run of the process is a run of the accept loop. -/
theorem run_ingress {p q : Process} {events : List ProcessEvent}
    (hr : (machine lib d).run p events = some (q, log)) :
    (IngressMachine.machine d).run p.ingress (events.filterMap ingressEvent) =
      some (q.ingress, log.filterMap ingressAction) := by
  refine Machine.run_project Process.ingress ingressEvent ingressAction (fun hs => ?_) hr
  rcases (step_cases hs).2 with ⟨e, ingress, actions, rfl, _, hs', rfl, rfl⟩ |
    ⟨e, supervisor, rfl, hs', rfl⟩ | ⟨e, supervisor, rfl, hs', rfl, rfl⟩
  · refine Or.inl ⟨e, rfl, ?_⟩
    rw [filterMap_ingress]
    exact hs'
  · exact Or.inr ⟨rfl, rfl, stepServer_silent hs'⟩
  · exact Or.inr ⟨rfl, rfl, rfl⟩

theorem serverInv_initial (lib : SupervisionLibrary) (d : Deployment)
    (routerListener : RouterListener) : ServerInv lib [] (initial d routerListener).supervisor :=
  ⟨trivial, by simp [initial], nofun, fun _ => nofun, fun _ _ => rfl⟩

theorem processInv_run {routerListener : RouterListener} {events : List ProcessEvent}
    {p : Process} (hr : (machine lib d).run (initial d routerListener) events = some (p, log)) :
    ProcessInv lib d log p := by
  refine ⟨inv_run (run_ingress hr), ?_⟩
  exact @Machine.run_invariant _ _ _ (machine lib d) (fun log p => ServerInv lib log p.supervisor)
    (fun hi hs => serverInv_step hi hs) _ _ _ _ (serverInv_initial lib d routerListener) hr

end PersonaMessage.ProcessMachine
