import PersonaMessage.SupervisionProgress
import PersonaMessage.ProcessLiveness

/-! The supervision thread of the process, among the steps of all the others, is the supervision
server over the connections that it has accepted. -/
namespace PersonaMessage.ProcessMachine
open ByteStream ChunkStream SignalFrames FrameProgress FrameReaders DaemonStamping Transitions
  IngressMachine Supervision SupervisionFrameCodec TableLibrary
open SupervisionServer (Server Served serveConnection Frontier Holds)

/-- The server as its thread starts it, and where the thread has it. -/
def freshServer : Server := ⟨⟨.message, 0⟩, false⟩

def Supervisor.server (v : Supervisor) : Server := ⟨v.actor, v.stopRequested⟩

/-- The connections that were served, each with the bytes that were served of it and with what
became of its replies. -/
abbrev Visits := List (ConnId × SupervisionServer.Connection Bytes)

/-- The bytes that were read of a connection are those that were served, but for a last request
that the actor failed to be asked. -/
inductive Taken (lib : SupervisionLibrary) (consumed incoming : Bytes) : Prop
  | whole (same : consumed = incoming)
  | unasked {got : Bytes} {received : ReceivedSupervisionRequest}
      (last : consumed = incoming ++ got) (request : Holds lib got received)

/-- What serving a connection has left of it. -/
structure LeftAs (lib : SupervisionLibrary) (stream : Duplex)
    (connection : SupervisionServer.Connection Bytes) (served : Served Bytes) : Prop where
  taken : Taken lib stream.consumed connection.incoming
  sent : stream.sent = served.sent.flatten

/-- The requests that the actor was asked, with their connections. -/
def ProcessAction.request : ProcessAction → Option (ConnId × SupervisionRequest)
  | .handled c request => some (c, request)
  | _ => none

def requestsOn (c : ConnId) (asked : List ReceivedSupervisionRequest) :
    List (ConnId × SupervisionRequest) :=
  asked.map fun received => (c, received.request)

def requests (visits : Visits) (served : List (Served Bytes)) :
    List (ConnId × SupervisionRequest) :=
  (visits.zip served).flatMap fun (visit, one) => requestsOn visit.1 one.asked

/-- These connections have been served, which has left the server so. -/
structure Settled (lib : SupervisionLibrary) (v : Supervisor) (visits : Visits)
    (served : List (Served Bytes)) (server : Server) : Prop where
  run : SupervisionServer.run .whole lib freshServer (visits.map fun visit => .ok visit.2) =
    (server, served)
  left : List.Forall₂ (fun visit one => LeftAs lib (v.connections visit.1).stream visit.2 one)
    visits served

/-- Connections are taken into service in the order in which they were opened, and none is lost:
those that still wait are those opened after the ones that were taken. -/
def InOrder (v : Supervisor) (visits : Visits) : Prop :=
  ∃ k ≤ v.opened, visits.map Prod.fst ++ v.phase.current.toList = List.range k ∧
    ∀ c : ℕ, (v.connections c).queued = true ↔ k ≤ c ∧ c < v.opened

/-- Where the loop is in its current connection, which it has served up to the bytes `front` with
the server `now`, what this has made of the server, and the requests that the actor was asked. -/
inductive Midway (lib : SupervisionLibrary) (now : Server) (stream : Duplex) (front sent : Bytes)
    (asked : List ReceivedSupervisionRequest) :
    Server → List ReceivedSupervisionRequest → ServerPhase → Prop
  | reading {c : ConnId} {got : Bytes} (taken : stream.consumed = front ++ got)
      (unsent : stream.sent = sent)
      (within : Within SupervisionFrameCodec.server.maximumFrameBytes got) :
      Midway lib now stream front sent asked now asked (.reading c got)
  | asking {c : ConnId} {got : Bytes} {received : ReceivedSupervisionRequest}
      (taken : stream.consumed = front ++ got) (unsent : stream.sent = sent)
      (request : Holds lib got received) :
      Midway lib now stream front sent asked now asked (.asking c received)
  | replying {c : ConnId} {got written rest : Bytes} {received : ReceivedSupervisionRequest}
      {reply : SupervisionReply} (taken : stream.consumed = front ++ got)
      (request : Holds lib got received)
      (encoded : writeReply lib received.exchange received.verb
        (now.phase.reply received.request).2.2 = .ok (written ++ rest))
      (out : stream.sent = sent ++ written) :
      Midway lib now stream front sent asked (now.ask received) (asked ++ [received])
        (.replying c reply rest)
  | checking {c : ConnId} {got bytes : Bytes} {received : ReceivedSupervisionRequest}
      (taken : stream.consumed = front ++ got) (request : Holds lib got received)
      (encoded : writeReply lib received.exchange received.verb
        (now.phase.reply received.request).2.2 = .ok bytes)
      (out : stream.sent = sent ++ bytes) :
      Midway lib now stream front sent asked (now.ask received) (asked ++ [received])
        (.checking c)

/-- A connection that is being served, on top of those that have been. -/
structure InService (lib : SupervisionLibrary) (log : List ProcessAction) (v : Supervisor)
    (visits : Visits) (served : List (Served Bytes)) (c : ConnId) (base now : Server)
    (front : Bytes) (asked handled : List ReceivedSupervisionRequest) (sent : List Bytes) :
    Prop where
  settled : Settled lib v visits served base
  unset : base.stopRequested = false
  order : InOrder v visits
  current : v.phase.current = some c
  frontier : Frontier lib base now front asked sent
  midway : Midway lib now (v.connections c).stream front sent.flatten asked v.server handled
    v.phase
  logged : log.filterMap ProcessAction.request = requests visits served ++ requestsOn c handled

/-- The supervision thread has served these visits as the server does, one after the other, and
may be in the middle of the next one. -/
inductive ServerSerial (lib : SupervisionLibrary) (log : List ProcessAction) (v : Supervisor)
    (visits : Visits) (served : List (Served Bytes)) : Prop
  | idle (settled : Settled lib v visits served v.server) (order : InOrder v visits)
      (current : v.phase.current = none)
      (logged : log.filterMap ProcessAction.request = requests visits served)
  | serving {c : ConnId} {base now : Server} {front : Bytes}
      {asked handled : List ReceivedSupervisionRequest} {sent : List Bytes}
      (service : InService lib log v visits served c base now front asked handled sent)

variable {lib : SupervisionLibrary} {d : Deployment} {log out : List ProcessAction}
  {v w : Supervisor} {visits : Visits} {served : List (Served Bytes)} {base now : Server}
  {c : ConnId} {front got : Bytes} {asked handled : List ReceivedSupervisionRequest}
  {sent : List Bytes} {received : ReceivedSupervisionRequest}

/-- The bytes that a finished read took are no request, unless the read says so. -/
theorem readRequest_done {stream : Duplex} {event : ReadEvent}
    {result : Except FrameFault SupervisionFrame}
    (hw : Within SupervisionFrameCodec.server.maximumFrameBytes got)
    (h : readStep lib SupervisionFrameCodec.server.maximumFrameBytes stream got event =
      some (.done result))
    (hn : ∀ frame, result = .ok frame → ∃ e, requestFromFrame lib frame = .error e) :
    ∃ e rest, SupervisionFrameCodec.server.readRequest .whole lib got = (.error e, rest) := by
  have hresult := (SupervisionServer.server_readsFrames .whole lib).result got
  unfold readRequest
  cases hf : SupervisionFrameCodec.server.readFrame .whole lib got with
  | mk read rest =>
    rw [hf] at hresult
    cases read with
    | error e => exact ⟨e, rest, rfl⟩
    | ok frame =>
      have hok := (frameAt_done hw h frame).mp (mapError_ok_iff.mp hresult.symm)
      obtain ⟨e, he⟩ := hn frame hok
      exact ⟨e, rest, by simp only [he]⟩

/-- No request is read where there are no bytes. -/
theorem readRequest_nil (lib : SupervisionLibrary) : ∃ e rest,
    SupervisionFrameCodec.server.readRequest .whole lib [] = (.error e, rest) := by
  have hended : readStep lib SupervisionFrameCodec.server.maximumFrameBytes
      Duplex.fresh.peerClose [] .ended = some (.done (.error (.io .unexpectedEof))) := rfl
  exact readRequest_done (within_nil _) hended (by simp)

/-- A read that hands out a request took the bytes that hold it. -/
theorem holds_received {stream : Duplex} {event : ReadEvent} {frame : SupervisionFrame}
    (hw : Within SupervisionFrameCodec.server.maximumFrameBytes got)
    (h : readStep lib SupervisionFrameCodec.server.maximumFrameBytes stream got event =
      some (.done (.ok frame)))
    (hr : requestFromFrame lib frame = .ok received) : Holds lib got received := by
  obtain ⟨hd, hf⟩ := readStep_ok h
  obtain ⟨h4, hl, hlen⟩ := hw.complete_length hd
  obtain ⟨request, hb, ho, hv⟩ := requestFromFrame_iff.mp hr
  exact ⟨hlen, hl, frame, request, hf, hb, ho, hv⟩

/-- What the server does not see of a step: its own connections are as it left them. -/
structure Kept (v w : Supervisor) : Prop where
  phase : w.phase = v.phase
  server : w.server = v.server
  opened : v.opened ≤ w.opened
  queued : ∀ c : ℕ, (w.connections c).queued = true ↔
    (v.connections c).queued = true ∨ v.opened ≤ c ∧ c < w.opened
  consumed : ∀ c < v.opened,
    (w.connections c).stream.consumed = (v.connections c).stream.consumed
  sent : ∀ c < v.opened, (w.connections c).stream.sent = (v.connections c).stream.sent

@[simp] theorem Supervisor.setStream_stream (v : Supervisor) (c : ConnId) (stream : Duplex) :
    ((v.setStream c stream).connections c).stream = stream := by
  simp [Supervisor.setStream]

@[simp] theorem Supervisor.setStream_queued (v : Supervisor) (c : ConnId) (stream : Duplex) :
    ((v.setStream c stream).connections c).queued = (v.connections c).queued := by
  simp [Supervisor.setStream]

theorem Supervisor.setStream_of_ne {c c' : ConnId} (h : c' ≠ c) (v : Supervisor)
    (stream : Duplex) : (v.setStream c stream).connections c' = v.connections c' :=
  Function.update_of_ne h ..

theorem kept_setStream {stream : Duplex}
    (hc : stream.consumed = (v.connections c).stream.consumed)
    (hs : stream.sent = (v.connections c).stream.sent) : Kept v (v.setStream c stream) := by
  have hsame : ∀ c', ((v.setStream c stream).connections c').queued = (v.connections c').queued ∧
      ((v.setStream c stream).connections c').stream.consumed =
        (v.connections c').stream.consumed ∧
      ((v.setStream c stream).connections c').stream.sent = (v.connections c').stream.sent := by
    intro c'
    by_cases h : c' = c
    · subst h
      simp [hc, hs]
    · simp [Supervisor.setStream_of_ne h]
  have hopened : (v.setStream c stream).opened = v.opened := rfl
  refine ⟨rfl, rfl, le_rfl, fun c' => ?_, fun c' _ => (hsame c').2.1, fun c' _ => (hsame c').2.2⟩
  rw [(hsame c').1, hopened]
  exact (or_iff_left fun h => absurd h.2 (Nat.not_lt.mpr h.1)).symm

theorem kept_stepPeer {event : PeerEvent} (hs : stepPeer v event = some w) : Kept v w := by
  cases event with
  | connect =>
    obtain rfl := Option.some.inj hs
    refine ⟨rfl, rfl, Nat.le_succ _, fun c => ?_, fun c hc => ?_, fun c hc => ?_⟩
    · by_cases h : c = v.opened
      · subst h
        simp
      · have hlt : ¬ (v.opened ≤ c ∧ c < v.opened+1) := by omega
        dsimp only
        rw [Function.update_of_ne h]
        exact (or_iff_left hlt).symm
    · simp [Function.update_of_ne hc.ne]
    · simp [Function.update_of_ne hc.ne]
  | write c bytes =>
    simp only [stepPeer] at hs
    split_ifs at hs
    obtain rfl := Option.some.inj hs
    exact kept_setStream rfl rfl
  | read c count =>
    simp only [stepPeer] at hs
    split_ifs at hs
    obtain rfl := Option.some.inj hs
    exact kept_setStream rfl rfl
  | close c =>
    simp only [stepPeer] at hs
    split_ifs at hs
    obtain rfl := Option.some.inj hs
    exact kept_setStream rfl rfl

/-- Connections that have been served stay as they are while nothing touches them. -/
theorem Settled.keep (h : Settled lib v visits served base)
    (hconsumed : ∀ visit ∈ visits, (w.connections visit.1).stream.consumed =
      (v.connections visit.1).stream.consumed)
    (hsent : ∀ visit ∈ visits,
      (w.connections visit.1).stream.sent = (v.connections visit.1).stream.sent) :
    Settled lib w visits served base := by
  refine ⟨h.run, List.forall₂_iff_get.mpr ⟨h.left.length_eq, fun i hi hi' => ?_⟩⟩
  have hm : visits.get ⟨i, hi⟩ ∈ visits := List.get_mem _ _
  obtain ⟨taken, sent⟩ := h.left.get hi hi'
  exact ⟨by rw [hconsumed _ hm]; exact taken, by rw [hsent _ hm]; exact sent⟩

/-- A connection that was taken does not wait. -/
theorem InOrder.taken (h : InOrder v visits)
    (hc : c ∈ visits.map Prod.fst ++ v.phase.current.toList) :
    (v.connections c).queued = false ∧ c < v.opened := by
  obtain ⟨k, hk, hl, hq⟩ := h
  rw [hl, List.mem_range] at hc
  refine ⟨Bool.eq_false_iff.mpr fun hn => ?_, hc.trans_le hk⟩
  exact absurd hc (Nat.not_lt.mpr ((hq c).mp hn).1)

/-- A connection that does not wait was taken. -/
theorem InOrder.mem (h : InOrder v visits) (hn : ¬ (v.connections c).queued = true)
    (hc : c < v.opened) : c ∈ visits.map Prod.fst ++ v.phase.current.toList := by
  obtain ⟨k, _, hl, hq⟩ := h
  rw [hl, List.mem_range]
  by_contra hk
  exact hn ((hq c).mpr ⟨Nat.le_of_not_lt hk, hc⟩)

theorem InOrder.visited (h : InOrder v visits) {visit : ConnId × SupervisionServer.Connection Bytes}
    (hv : visit ∈ visits) : (v.connections visit.1).queued = false ∧ visit.1 < v.opened :=
  h.taken (List.mem_append_left _ (List.mem_map_of_mem hv))

/-- A connection that was served is not served again. -/
theorem InOrder.current_ne (h : InOrder v visits) (hc : v.phase.current = some c)
    {visit : ConnId × SupervisionServer.Connection Bytes} (hv : visit ∈ visits) :
    visit.1 ≠ c := by
  obtain ⟨k, _, hl, _⟩ := h
  have hnodup := List.nodup_range (n := k)
  rw [← hl, hc] at hnodup
  intro he
  exact (List.disjoint_of_nodup_append hnodup) (List.mem_map_of_mem hv) (by simp [he])

theorem InOrder.unqueued (h : InOrder v visits) (hc : v.phase.current = some c) :
    (v.connections c).queued = false ∧ c < v.opened :=
  h.taken (List.mem_append_right _ (by rw [hc]; simp))

theorem InOrder.keep {visits' : Visits} (h : InOrder v visits) (hopened : w.opened = v.opened)
    (hqueued : ∀ c, (w.connections c).queued = (v.connections c).queued)
    (hl : visits'.map Prod.fst ++ w.phase.current.toList =
      visits.map Prod.fst ++ v.phase.current.toList) : InOrder w visits' := by
  obtain ⟨k, hk, hr, hq⟩ := h
  refine ⟨k, hopened ▸ hk, hl.trans hr, fun c => ?_⟩
  rw [hqueued, hopened]
  exact hq c

theorem InOrder.kept (h : InOrder v visits) (hk : Kept v w) : InOrder w visits := by
  obtain ⟨k, ho, hr, hq⟩ := h
  have hopened := hk.opened
  refine ⟨k, ho.trans hopened, hk.phase ▸ hr, fun c => ?_⟩
  rw [hk.queued, hq]
  omega

theorem Settled.kept (h : Settled lib v visits served base) (ho : InOrder v visits)
    (hk : Kept v w) : Settled lib w visits served base :=
  h.keep (fun _ hv => hk.consumed _ (ho.visited hv).2) fun _ hv => hk.sent _ (ho.visited hv).2

/-- A connection in service only depends on what was read of it and written to it. -/
theorem Midway.congr {stream stream' : Duplex} {server : Server} {phase : ServerPhase}
    {sent : Bytes} (h : Midway lib now stream front sent asked server handled phase)
    (hc : stream'.consumed = stream.consumed) (hs : stream'.sent = stream.sent) :
    Midway lib now stream' front sent asked server handled phase := by
  cases h with
  | reading taken unsent within => exact .reading (hc.trans taken) (hs.trans unsent) within
  | asking taken unsent request => exact .asking (hc.trans taken) (hs.trans unsent) request
  | replying taken request encoded out =>
    exact .replying (hc.trans taken) request encoded (hs.trans out)
  | checking taken request encoded out =>
    exact .checking (hc.trans taken) request encoded (hs.trans out)

theorem ServerSerial.kept (h : ServerSerial lib log v visits served) (hk : Kept v w) :
    ServerSerial lib log w visits served := by
  cases h with
  | idle settled order current logged =>
    refine .idle ?_ (order.kept hk) (hk.phase ▸ current) logged
    rw [hk.server]
    exact settled.kept order hk
  | serving service =>
    obtain ⟨settled, unset, order, current, frontier, midway, logged⟩ := service
    have hopened := (order.unqueued current).2
    refine .serving ⟨settled.kept order hk, unset, order.kept hk, hk.phase ▸ current, frontier, ?_,
      logged⟩
    rw [hk.phase, hk.server]
    exact midway.congr (hk.consumed _ hopened) (hk.sent _ hopened)

theorem ServerSerial.relog {log' : List ProcessAction}
    (h : ServerSerial lib log v visits served)
    (hl : log'.filterMap ProcessAction.request = log.filterMap ProcessAction.request) :
    ServerSerial lib log' v visits served := by
  cases h with
  | idle settled order current logged => exact .idle settled order current (hl.trans logged)
  | serving service =>
    obtain ⟨settled, unset, order, current, frontier, midway, logged⟩ := service
    exact .serving ⟨settled, unset, order, current, frontier, midway, hl.trans logged⟩

/-- The requests of one more connection. -/
theorem requests_snoc (h : visits.length = served.length) (c : ConnId)
    (connection : SupervisionServer.Connection Bytes) (one : Served Bytes) :
    requests (visits ++ [(c, connection)]) (served ++ [one]) =
      requests visits served ++ requestsOn c one.asked := by
  simp only [requests, List.zip_append h, List.flatMap_append, List.zip_cons_cons,
    List.zip_nil_left, List.flatMap_cons, List.flatMap_nil, List.append_nil]

theorem requestsOn_snoc (c : ConnId) (asked : List ReceivedSupervisionRequest)
    (received : ReceivedSupervisionRequest) :
    requestsOn c (asked ++ [received]) = requestsOn c asked ++ [(c, received.request)] := by
  simp only [requestsOn, List.map_append, List.map_cons, List.map_nil]

/-- The service goes on with a step that touches its own connection only. -/
theorem InService.go (h : InService lib log v visits served c base now front asked handled sent)
    {front' : Bytes} {asked' : List ReceivedSupervisionRequest} {sent' : List Bytes}
    {now' : Server} (handled' : List ReceivedSupervisionRequest) (hopened : w.opened = v.opened)
    (hconnections : ∀ c', c' ≠ c → w.connections c' = v.connections c')
    (hqueued : (w.connections c).queued = (v.connections c).queued)
    (hcurrent : w.phase.current = some c)
    (hfrontier : Frontier lib base now' front' asked' sent')
    (hmidway : Midway lib now' (w.connections c).stream front' sent'.flatten asked' w.server
      handled' w.phase)
    (hlogged : (log ++ out).filterMap ProcessAction.request =
      requests visits served ++ requestsOn c handled') :
    InService lib (log ++ out) w visits served c base now' front' asked' handled' sent' := by
  have hne : ∀ visit ∈ visits, visit.1 ≠ c := fun visit hv => h.order.current_ne h.current hv
  refine ⟨?_, h.unset, h.order.keep hopened (fun c' => ?_) ?_, hcurrent, hfrontier, hmidway,
    hlogged⟩
  · refine h.settled.keep (fun visit hv => ?_) fun visit hv => ?_
    · rw [hconnections _ (hne visit hv)]
    · rw [hconnections _ (hne visit hv)]
  · by_cases hc : c' = c
    · rw [hc, hqueued]
    · rw [hconnections _ hc]
  · rw [hcurrent, h.current]

/-- The service ends, and leaves the connection as the server does on its own. -/
theorem InService.finish
    (h : InService lib log v visits served c base now front asked handled sent)
    {connection : SupervisionServer.Connection Bytes} {one : Served Bytes}
    {result : Except IoError Unit}
    (hrun : serveConnection .whole lib connection.fault base 0 connection.incoming =
      (w.server, one, result))
    (htaken : Taken lib (v.connections c).stream.consumed connection.incoming)
    (hsent : (v.connections c).stream.sent = one.sent.flatten)
    (hopened : w.opened = v.opened) (hconnections : w.connections = v.connections)
    (hcurrent : w.phase.current = none)
    (hlogged : (log ++ out).filterMap ProcessAction.request =
      requests visits served ++ requestsOn c one.asked) :
    ServerSerial lib (log ++ out) w (visits ++ [(c, connection)]) (served ++ [one]) := by
  have hkeep : Settled lib w visits served base :=
    h.settled.keep (fun _ _ => by rw [hconnections]) fun _ _ => by rw [hconnections]
  refine .idle ⟨?_, ?_⟩ (h.order.keep hopened (fun _ => by rw [hconnections]) ?_) hcurrent ?_
  · have hmap : visits.map (fun visit => (Except.ok visit.2 : Except IoError _)) =
        (visits.map Prod.snd).map .ok := by
      rw [List.map_map]
      rfl
    have hsnoc := SupervisionServer.run_snoc (hmap ▸ h.settled.run) h.unset rfl connection
    rw [hrun] at hsnoc
    rw [List.map_append, hmap]
    rw [List.map_append] at hsnoc
    exact hsnoc
  · refine List.rel_append hkeep.left (.cons ?_ .nil)
    rw [hconnections]
    exact ⟨htaken, hsent⟩
  · rw [hcurrent, h.current]
    simp
  · rw [hlogged, requests_snoc h.settled.left.length_eq]

theorem ServerSerial.order (h : ServerSerial lib log v visits served) : InOrder v visits := by
  cases h with
  | idle settled order current logged => exact order
  | serving service => exact service.order

theorem ServerSerial.settled (h : ServerSerial lib log v visits served) :
    ∃ base, Settled lib v visits served base := by
  cases h with
  | idle settled order current logged => exact ⟨_, settled⟩
  | serving service => exact ⟨_, service.settled⟩

theorem ServerSerial.inService (h : ServerSerial lib log v visits served)
    (hc : v.phase.current = some c) : ∃ base now front asked handled sent,
    InService lib log v visits served c base now front asked handled sent := by
  cases h with
  | idle settled order current =>
    rw [hc] at current
    cases current
  | serving service =>
    obtain rfl := Option.some.inj (hc.symm.trans service.current)
    exact ⟨_, _, _, _, _, _, service⟩

/-- A step between two connections. -/
theorem ServerSerial.turn (h : ServerSerial lib log v visits served)
    (hv : v.phase.current = none) {phase : ServerPhase} (hw : phase.current = none) :
    ServerSerial lib (log ++ []) { v with phase } visits served := by
  cases h with
  | idle settled order current logged =>
    refine .idle (settled.keep (fun _ _ => rfl) fun _ _ => rfl)
      (order.keep rfl (fun _ => rfl) (by rw [hv, hw])) hw ?_
    rw [List.append_nil]
    exact logged
  | serving service =>
    have hcurrent := service.current
    rw [hv] at hcurrent
    cases hcurrent

/-- The connection that is taken is the next one in the order of opening. -/
theorem InOrder.accept (h : InOrder v visits) (hv : v.phase.current = none)
    (hw : v.waiting = some c) :
    InOrder { v with
      phase := .reading c []
      connections := Function.update v.connections c { v.connections c with queued := false } }
      visits := by
  obtain ⟨k, hk, hl, hq⟩ := h
  obtain ⟨hqueued, _, hfirst⟩ := List.find?_range_eq_some.mp hw
  have hwaits := (hq c).mp (by simpa using hqueued)
  have hc : c = k := by
    by_contra hne
    have hnone := hfirst k (lt_of_le_of_ne hwaits.1 (Ne.symm hne))
    rw [(hq k).mpr ⟨le_rfl, hwaits.1.trans_lt hwaits.2⟩] at hnone
    cases hnone
  subst hc
  rw [hv, Option.toList_none, List.append_nil] at hl
  refine ⟨c+1, hwaits.2, ?_, fun c' => ?_⟩
  · rw [hl, List.range_succ]
    rfl
  · by_cases he : c' = c
    · subst he
      simp
    · simp only [Function.update_of_ne he, hq]
      omega

/-- Nothing has been read or written of a connection that still waits. -/
def Untouched (v : Supervisor) : Prop :=
  ∀ c, (v.connections c).queued = true →
    (v.connections c).stream.consumed = [] ∧ (v.connections c).stream.sent = []

/-- The first waiting connection is taken into service. -/
theorem serial_accept (hi : ServerInv lib log v) (hu : Untouched v)
    (h : ServerSerial lib log v visits served) (hp : v.phase = .accepting) :
    ServerSerial lib (log ++ []) (stepAccept v) visits served := by
  have hv : v.phase.current = none := by
    rw [hp]
    rfl
  unfold stepAccept
  split
  · exact h.turn hv rfl
  · next c hw =>
    have hqueued : (v.connections c).queued = true := by
      simpa using List.find?_some hw
    have hopened : c < v.opened := List.mem_range.mp (List.mem_of_find?_eq_some hw)
    have hunset : v.stopRequested = false := by
      have hplace := hi.place
      rw [hp] at hplace
      exact hplace
    cases h with
    | serving service =>
      have hcurrent := service.current
      rw [hv] at hcurrent
      cases hcurrent
    | idle settled order current logged =>
      have hne : ∀ visit ∈ visits, visit.1 ≠ c := by
        intro visit hm he
        have hidle := (order.visited hm).1
        rw [he, hqueued] at hidle
        cases hidle
      refine @ServerSerial.serving _ _ _ _ _ c _ _ _ _ [] _ ⟨settled.keep (fun visit hm => ?_)
        fun visit hm => ?_, hunset, order.accept hv hw, rfl,
        SupervisionServer.frontier_start lib v.server, ?_, ?_⟩
      · simp [hne visit hm]
      · simp [hne visit hm]
      · apply Midway.reading
        · simpa using (hu c hqueued).1
        · simpa using (hu c hqueued).2
        · exact within_nil _
      · rw [List.append_nil, logged]
        exact (List.append_nil _).symm

/-- A request that is not read ends the service. -/
theorem serial_unread (h : ServerSerial lib log v visits served)
    (hp : v.phase = .reading c got) {event : ReadEvent}
    {result : Except FrameFault SupervisionFrame}
    (hread : readStep lib SupervisionFrameCodec.server.maximumFrameBytes
      (v.connections c).stream got event = some (.done result))
    (hn : ∀ frame, result = .ok frame → ∃ e, requestFromFrame lib frame = .error e) :
    ∃ visits served, ServerSerial lib (log ++ []) { v with phase := .polling } visits served := by
  obtain ⟨base, now, front, asked, handled, sent, service⟩ := h.inService (by rw [hp]; rfl)
  have hmidway := service.midway
  have hlogged := service.logged
  rw [hp] at hmidway
  generalize hserver : v.server = server at hmidway
  cases hmidway with
  | reading taken unsent within =>
    obtain ⟨e, rest, hr⟩ := readRequest_done within hread hn
    have hrun := service.frontier.ends hr
    rw [← hserver, ← taken] at hrun
    rw [← List.append_nil log] at hlogged
    exact ⟨_, _, @InService.finish _ _ _ _ { v with phase := .polling } _ _ _ _ _ _ _ _ _ service
      ⟨_, _⟩ _ _ hrun (.whole rfl) unsent rfl rfl rfl hlogged⟩

/-- More bytes of a request are read. -/
theorem serial_readMore (h : ServerSerial lib log v visits served)
    (hp : v.phase = .reading c got) {event : ReadEvent} {stream : Duplex} {got' : Bytes}
    (hread : readStep lib SupervisionFrameCodec.server.maximumFrameBytes
      (v.connections c).stream got event = some (.more stream got')) :
    ServerSerial lib (log ++ [])
      (({ v with phase := .reading c got' } : Supervisor).setStream c stream) visits served := by
  obtain ⟨base, now, front, asked, handled, sent, service⟩ := h.inService (by rw [hp]; rfl)
  have hmidway := service.midway
  have hlogged := service.logged
  obtain ⟨chunk, hconsumed, rfl, hsent, _, hwithin⟩ := readStep_more hread
  rw [hp] at hmidway
  generalize hserver : v.server = server at hmidway
  cases hmidway with
  | reading taken unsent within =>
    refine .serving (service.go asked rfl ?_ ?_ rfl service.frontier ?_ ?_)
    · exact fun c' hc => Supervisor.setStream_of_ne hc ..
    · exact Supervisor.setStream_queued ..
    · have hmid : Midway lib now stream front sent.flatten asked v.server asked
          (.reading c (got ++ chunk)) := by
        rw [hserver]
        refine .reading ?_ (hsent.trans unsent) hwithin
        rw [hconsumed, taken, List.append_assoc]
      rw [Supervisor.setStream_stream]
      exact hmid
    · rw [List.append_nil]
      exact hlogged

/-- A whole request is read. -/
theorem serial_received (h : ServerSerial lib log v visits served)
    (hp : v.phase = .reading c got) {event : ReadEvent} {frame : SupervisionFrame}
    (hread : readStep lib SupervisionFrameCodec.server.maximumFrameBytes
      (v.connections c).stream got event = some (.done (.ok frame)))
    (hr : requestFromFrame lib frame = .ok received) :
    ServerSerial lib (log ++ []) { v with phase := .asking c received } visits served := by
  obtain ⟨base, now, front, asked, handled, sent, service⟩ := h.inService (by rw [hp]; rfl)
  have hmidway := service.midway
  have hlogged := service.logged
  rw [hp] at hmidway
  generalize hserver : v.server = server at hmidway
  cases hmidway with
  | reading taken unsent within =>
    refine .serving (service.go asked rfl (fun _ _ => rfl) rfl rfl service.frontier ?_ ?_)
    · have hmid : Midway lib now (v.connections c).stream front sent.flatten asked v.server asked
          (.asking c received) := by
        rw [hserver]
        exact .asking taken unsent (holds_received within hread hr)
      exact hmid
    · rw [List.append_nil]
      exact hlogged

/-- The actor runs its handler, and the thread has its reply to write or none. -/
theorem serial_ask (h : ServerSerial lib log v visits served)
    (hp : v.phase = .asking c received) : ∃ visits served,
    ServerSerial lib (log ++ [.handled c received.request]) (stepAsk lib v c received) visits
      served := by
  obtain ⟨base, now, front, asked, handled, sent, service⟩ := h.inService (by rw [hp]; rfl)
  have hmidway := service.midway
  have hlogged := service.logged
  rw [hp] at hmidway
  generalize hserver : v.server = server at hmidway
  cases hmidway with
  | @asking _ got _ taken unsent request =>
    have hactor : v.actor = now.phase := by
      rw [← hserver]
      rfl
    have hask : (stepAsk lib v c received).server = now.ask received := by
      rw [← hserver]
      rfl
    have hlogged' : List.filterMap ProcessAction.request
        (log ++ [.handled c received.request]) =
          requests visits served ++ requestsOn c (asked ++ [received]) := by
      rw [List.filterMap_append, hlogged, requestsOn_snoc, List.append_assoc]
      rfl
    cases hw : writeReply lib received.exchange received.verb
        (now.phase.reply received.request).2.2 with
    | error e =>
      have hphase : (stepAsk lib v c received).phase = .polling := by
        simp only [stepAsk, hactor, hw]
      have hrun := service.frontier.unwritten request hw
      rw [← hask, ← taken] at hrun
      exact ⟨_, _, @InService.finish _ _ _ _ (stepAsk lib v c received) _ _ _ _ _ _ _ _ _ service
        ⟨_, _⟩ _ _ hrun (.whole rfl) unsent rfl rfl (by rw [hphase]; rfl) hlogged'⟩
    | ok bytes =>
      have hphase : (stepAsk lib v c received).phase =
          .replying c (now.phase.reply received.request).2.2 bytes := by
        simp only [stepAsk, hactor, hw]
      refine ⟨_, _, .serving (service.go (asked ++ [received]) rfl (fun _ _ => rfl) rfl
        (by rw [hphase]; rfl) service.frontier ?_ hlogged')⟩
      rw [hask, hphase]
      refine @Midway.replying _ _ _ _ _ _ _ _ [] _ _ _ taken request hw ?_
      rw [List.append_nil]
      exact unsent

/-- The actor fails to be asked, which ends the service. -/
theorem serial_askFailed (h : ServerSerial lib log v visits served)
    (hp : v.phase = .asking c received) : ∃ visits served,
    ServerSerial lib (log ++ []) { v with phase := .polling } visits served := by
  obtain ⟨base, now, front, asked, handled, sent, service⟩ := h.inService (by rw [hp]; rfl)
  have hmidway := service.midway
  have hlogged := service.logged
  rw [hp] at hmidway
  generalize hserver : v.server = server at hmidway
  cases hmidway with
  | @asking _ got _ taken unsent request =>
    obtain ⟨e, rest, hr⟩ := readRequest_nil lib
    have hrun := service.frontier.ends hr
    rw [← hserver, List.append_nil] at hrun
    rw [← List.append_nil log] at hlogged
    exact ⟨_, _, @InService.finish _ _ _ _ { v with phase := .polling } _ _ _ _ _ _ _ _ _ service
      ⟨_, _⟩ _ _ hrun (.unasked taken request) unsent rfl rfl rfl hlogged⟩

/-- A part of the reply goes out. -/
theorem serial_writeMore (h : ServerSerial lib log v visits served) {reply : SupervisionReply}
    {rest rest' : Bytes} (hp : v.phase = .replying c reply rest) {event : WriteEvent}
    {stream : Duplex}
    (hwrite : writeStep d.capacity (v.connections c).stream rest event =
      some (.ok (stream, rest'))) :
    ServerSerial lib (log ++ [])
      (({ v with phase := .replying c reply rest' } : Supervisor).setStream c stream) visits
      served := by
  obtain ⟨base, now, front, asked, handled, sent, service⟩ := h.inService (by rw [hp]; rfl)
  have hmidway := service.midway
  have hlogged := service.logged
  have hconsumed := (writeStep_ok hwrite).2
  obtain ⟨chunk, rfl, hsent⟩ := writeStep_chunk hwrite
  rw [hp] at hmidway
  generalize hserver : v.server = server at hmidway
  cases hmidway with
  | @replying _ got written _ received _ taken request encoded out =>
    refine .serving (service.go (asked ++ [received]) rfl ?_ ?_ rfl service.frontier ?_ ?_)
    · exact fun c' hc => Supervisor.setStream_of_ne hc ..
    · exact Supervisor.setStream_queued ..
    · have hmid : Midway lib now stream front sent.flatten asked v.server (asked ++ [received])
          (.replying c reply rest') := by
        rw [hserver]
        refine @Midway.replying _ _ _ _ _ _ _ _ (written ++ chunk) _ _ _ (hconsumed.trans taken)
          request ?_ ?_
        · rw [List.append_assoc]
          exact encoded
        · rw [hsent, out, List.append_assoc]
      rw [Supervisor.setStream_stream]
      exact hmid
    · rw [List.append_nil]
      exact hlogged

/-- The last of the reply goes out. -/
theorem serial_written (h : ServerSerial lib log v visits served) {reply : SupervisionReply}
    {rest : Bytes} (hp : v.phase = .replying c reply rest) {event : WriteEvent}
    {stream : Duplex}
    (hwrite : writeStep d.capacity (v.connections c).stream rest event =
      some (.ok (stream, []))) :
    ServerSerial lib (log ++ [.replied c reply])
      (({ v with phase := .checking c } : Supervisor).setStream c stream) visits served := by
  obtain ⟨base, now, front, asked, handled, sent, service⟩ := h.inService (by rw [hp]; rfl)
  have hmidway := service.midway
  have hlogged := service.logged
  obtain ⟨hsent, hconsumed⟩ := writeStep_ok hwrite
  rw [List.append_nil] at hsent
  rw [hp] at hmidway
  generalize hserver : v.server = server at hmidway
  cases hmidway with
  | @replying _ got written _ received _ taken request encoded out =>
    refine .serving (service.go (asked ++ [received]) rfl ?_ ?_ rfl service.frontier ?_ ?_)
    · exact fun c' hc => Supervisor.setStream_of_ne hc ..
    · exact Supervisor.setStream_queued ..
    · have hmid : Midway lib now stream front sent.flatten asked v.server (asked ++ [received])
          (.checking c) := by
        rw [hserver]
        refine .checking (hconsumed.trans taken) request encoded ?_
        rw [hsent, out, List.append_assoc]
      rw [Supervisor.setStream_stream]
      exact hmid
    · rw [List.filterMap_append, hlogged]
      exact List.append_nil _

/-- The reply fails to go out as a whole, which ends the service. -/
theorem serial_writeFailed (h : ServerSerial lib log v visits served) {reply : SupervisionReply}
    {rest : Bytes} (hp : v.phase = .replying c reply rest) (e : IoError) :
    ∃ visits served, ServerSerial lib (log ++ []) { v with phase := .polling } visits served := by
  obtain ⟨base, now, front, asked, handled, sent, service⟩ := h.inService (by rw [hp]; rfl)
  have hmidway := service.midway
  have hlogged := service.logged
  rw [hp] at hmidway
  generalize hserver : v.server = server at hmidway
  cases hmidway with
  | @replying _ got written _ received _ taken request encoded out =>
    have hrun := service.frontier.broken request encoded e
    rw [← hserver, ← taken] at hrun
    rw [← List.append_nil log] at hlogged
    refine ⟨_, _, @InService.finish _ _ _ _ { v with phase := .polling } _ _ _ _ _ _ _ _ _ service
      ⟨_, _⟩ _ _ hrun (.whole rfl) ?_ rfl rfl rfl hlogged⟩
    rw [out, List.flatten_append, List.flatten_singleton]

/-- After a reply the service goes on, unless the request was to stop. -/
theorem serial_check (h : ServerSerial lib log v visits served) (hp : v.phase = .checking c) :
    ∃ visits served, ServerSerial lib (log ++ [])
      { v with phase := if v.stopRequested then .polling else .reading c [] } visits served := by
  obtain ⟨base, now, front, asked, handled, sent, service⟩ := h.inService (by rw [hp]; rfl)
  have hmidway := service.midway
  have hlogged := service.logged
  rw [← List.append_nil log] at hlogged
  rw [hp] at hmidway
  generalize hserver : v.server = server at hmidway
  cases hmidway with
  | @checking _ got bytes received taken request encoded out =>
    have hflatten : (v.connections c).stream.sent = (sent ++ [bytes]).flatten := by
      rw [out, List.flatten_append, List.flatten_singleton]
    have hflag : v.stopRequested = (now.ask received).stopRequested := by
      rw [← hserver]
      rfl
    cases hs : (now.ask received).stopRequested with
    | true =>
      have hrun := service.frontier.stopped request encoded hs
      rw [← hserver, ← taken] at hrun
      have hnext : (if v.stopRequested then .polling else .reading c []) = ServerPhase.polling :=
        if_pos (hflag.trans hs)
      rw [hnext]
      exact ⟨_, _, @InService.finish _ _ _ _ { v with phase := .polling } _ _ _ _ _ _ _ _ _
        service ⟨_, _⟩ _ _ hrun (.whole rfl) hflatten rfl rfl rfl hlogged⟩
    | false =>
      have hnext : (if v.stopRequested then .polling else .reading c []) =
          ServerPhase.reading c [] := if_neg (by rw [hflag, hs]; exact Bool.false_ne_true)
      rw [hnext]
      refine ⟨_, _, .serving (service.go (asked ++ [received]) rfl (fun _ _ => rfl) rfl rfl
        (service.frontier.next request encoded hs) ?_ hlogged)⟩
      have hmid : Midway lib (now.ask received) (v.connections c).stream (front ++ got)
          (sent ++ [bytes]).flatten (asked ++ [received]) v.server (asked ++ [received])
          (.reading c []) := by
        rw [hserver]
        refine .reading ?_ hflatten (within_nil _)
        rw [taken, List.append_nil]
      exact hmid

theorem serial_stepServer {event : ServerEvent} (hi : ServerInv lib log v) (hu : Untouched v)
    (h : ServerSerial lib log v visits served)
    (hs : stepServer lib d.capacity v event = some (w, out)) :
    ∃ visits served, ServerSerial lib (log ++ out) w visits served := by
  cases stepServer_cases hs with
  | poll place =>
    refine ⟨_, _, h.turn (by rw [place]; rfl) ?_⟩
    split_ifs <;> rfl
  | accept place => exact ⟨_, _, serial_accept hi hu h place⟩
  | acceptFailed place => exact ⟨_, _, h.turn (by rw [place]; rfl) rfl⟩
  | wake place => exact ⟨_, _, h.turn (by rw [place]; rfl) rfl⟩
  | readMore place read => exact ⟨_, _, serial_readMore h place read⟩
  | readFailed place read => exact serial_unread h place read (by simp)
  | refused place read refused =>
    refine serial_unread h place read fun frame hf => ?_
    obtain rfl := Except.ok.inj hf
    exact ⟨_, refused⟩
  | received place read request => exact ⟨_, _, serial_received h place read request⟩
  | ask place => exact serial_ask h place
  | askFailed place => exact serial_askFailed h place
  | @writeFailed _ _ _ _ e place write => exact serial_writeFailed h place e
  | written place write => exact ⟨_, _, serial_written h place write⟩
  | writeMore place left write => exact ⟨_, _, serial_writeMore h place write⟩
  | check place => exact serial_check h place

theorem untouched_setStream {stream : Duplex} (hu : Untouched v)
    (hs : (v.connections c).queued = true → stream.consumed = [] ∧ stream.sent = []) :
    Untouched (v.setStream c stream) := by
  intro c' hc'
  by_cases h : c' = c
  · subst h
    rw [Supervisor.setStream_queued] at hc'
    rw [Supervisor.setStream_stream]
    exact hs hc'
  · rw [Supervisor.setStream_of_ne h] at hc' ⊢
    exact hu c' hc'

theorem untouched_stepPeer {event : PeerEvent} (hu : Untouched v)
    (hs : stepPeer v event = some w) : Untouched w := by
  cases event with
  | connect =>
    obtain rfl := Option.some.inj hs
    intro c hc
    by_cases h : c = v.opened
    · subst h
      simp [Duplex.fresh]
    · simp only [Function.update_of_ne h] at hc ⊢
      exact hu c hc
  | write c bytes =>
    simp only [stepPeer] at hs
    split_ifs at hs
    obtain rfl := Option.some.inj hs
    exact untouched_setStream hu (hu c)
  | read c count =>
    simp only [stepPeer] at hs
    split_ifs at hs
    obtain rfl := Option.some.inj hs
    exact untouched_setStream hu (hu c)
  | close c =>
    simp only [stepPeer] at hs
    split_ifs at hs
    obtain rfl := Option.some.inj hs
    exact untouched_setStream hu (hu c)

theorem untouched_stepServer {event : ServerEvent} (hu : Untouched v)
    (hc : ∀ c, v.phase.current = some c → (v.connections c).queued = false)
    (hs : stepServer lib d.capacity v event = some (w, out)) : Untouched w := by
  have hserved : ∀ {c : ConnId} {P : Prop}, v.phase.current = some c →
      (v.connections c).queued = true → P := by
    intro c P hp hq
    rw [hc c hp] at hq
    cases hq
  cases stepServer_cases hs with
  | accept place =>
    unfold stepAccept
    split
    · exact hu
    · next c hw =>
      intro c' hc'
      by_cases h : c' = c
      · subst h
        simp at hc'
      · simp only [Function.update_of_ne h] at hc' ⊢
        exact hu c' hc'
  | readMore place read => exact untouched_setStream hu (hserved (by rw [place]; rfl))
  | written place write => exact untouched_setStream hu (hserved (by rw [place]; rfl))
  | writeMore place left write => exact untouched_setStream hu (hserved (by rw [place]; rfl))
  | _ => exact hu

/-- What the supervision thread has done so far is the server's work on some connections. -/
structure Supervised (lib : SupervisionLibrary) (log : List ProcessAction) (v : Supervisor) :
    Prop where
  untouched : Untouched v
  serial : ∃ visits served, ServerSerial lib log v visits served

theorem supervised_step {p q : Process} {event : ProcessEvent}
    (hi : ServerInv lib log p.supervisor) (h : Supervised lib log p.supervisor)
    (hs : step lib d p event = some (q, out)) : Supervised lib (log ++ out) q.supervisor := by
  obtain ⟨hu, visits, served, hserial⟩ := h
  rcases (step_cases hs).2 with ⟨e, ingress, actions, rfl, _, _, rfl, rfl⟩ |
    ⟨e, supervisor, rfl, hs', rfl⟩ | ⟨e, supervisor, rfl, hs', rfl, rfl⟩
  · have hnone : (actions.map ProcessAction.ingress).filterMap ProcessAction.request = [] := by
      rw [List.filterMap_map]
      exact List.filterMap_eq_nil_iff.mpr fun _ _ => rfl
    have hlog : (log ++ actions.map ProcessAction.ingress).filterMap ProcessAction.request =
        log.filterMap ProcessAction.request := by
      rw [List.filterMap_append, hnone, List.append_nil]
    exact ⟨hu, visits, served, hserial.relog hlog⟩
  · refine ⟨untouched_stepServer hu (fun c hc => ?_) hs', serial_stepServer hi hu hserial hs'⟩
    obtain ⟨_, _, _, _, _, _, service⟩ := hserial.inService hc
    exact (service.order.unqueued hc).1
  · rw [List.append_nil]
    exact ⟨untouched_stepPeer hu hs', visits, served, hserial.kept (kept_stepPeer hs')⟩

theorem supervised_run {listen : RouterListener} {events : List ProcessEvent} {p : Process}
    (hr : (machine lib d).run (initial d listen) events = some (p, log)) :
    Supervised lib log p.supervisor := by
  have hstart : Supervised lib [] (initial d listen).supervisor := by
    refine ⟨fun c hc => ?_, [], [], .idle ⟨rfl, .nil⟩ ⟨0, le_rfl, rfl, fun c => ?_⟩ rfl rfl⟩
    · cases hc
    · exact iff_of_false (by simp [initial]) fun h => Nat.not_lt_zero _ h.2
  have hrun := @Machine.run_invariant _ _ _ (machine lib d)
    (fun log p => ServerInv lib log p.supervisor ∧ Supervised lib log p.supervisor)
    (fun h hs => ⟨serverInv_step h.1 hs, supervised_step h.1 h.2 hs⟩) _ _ _ _
    ⟨serverInv_initial lib d listen, hstart⟩ hr
  exact hrun.2

end PersonaMessage.ProcessMachine
