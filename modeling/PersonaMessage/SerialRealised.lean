import PersonaMessage.FrameSchedule
import PersonaMessage.IngressSerial

/-! Whatever `handle_connection` can do to connections that are served one after the other, with
all its errors, happens in a run of the accept loop. -/
namespace PersonaMessage.IngressMachine
open ByteStream SignalFrames FrameProgress FrameSchedule RouterCodec SignalRouterFrameCodec
  DaemonStamping DaemonConnection ConnectionFaults Transitions

variable {d : Deployment} {s t : Ingress} {c : ConnId}

/-- No connection waits in a backlog. -/
def Idle (s : Ingress) : Prop := ∀ c < s.opened, (s.connections c).queued = false

/-- The daemon deals with this connection and none waits: its client still reads, and has been sent
nothing. -/
structure Undisturbed (s : Ingress) (c : ConnId) : Prop where
  opened : c < s.opened
  idle : Idle s
  reads : (s.connections c).stream.closed = false
  unsent : (s.connections c).stream.sent = []

/-- Some run serves a connection to this end: with these entries, and where it goes on with this
root after this many connections. -/
def Ends (d : Deployment) (s : Ingress) (entries : List Action) (root : MessageDaemonRoot)
    (opened : ℕ) : Result Unit → Prop
  | .error e => ∃ t log, (machine d).Reaches s log t ∧ served log = entries ∧
      t.phase = .exited (.error e)
  | .ok () => ∃ t log, (machine d).Reaches s log t ∧ served log = entries ∧ t.phase = .polling ∧
      t.root = root ∧ t.opened = opened ∧ Idle t

/-- The phase, and the stream of the connection that is being served. -/
def Ingress.serving (s : Ingress) (c : ConnId) (phase : MainPhase) (stream : Duplex) : Ingress :=
  ({ s with phase := phase } : Ingress).setStream c stream

/-- What a visit leaves in the history after its accept. -/
def answeredEntries (c : ConnId) (handled : Handled) : List Action :=
  handled.delivered.toList.map (.forwarded c) ++ handled.replied.toList.map (.replied c)

/-- The end of a visit, given how its submission is answered. -/
def submissionHandled (lib : MessageLibrary) (root : MessageDaemonRoot) (delivered : Option Bytes)
    (received : ReceivedMessageRequest) (outgoing : Option IoError) :
    Result MessageReply → Handled
  | .error e => ⟨root, delivered, none, .error e⟩
  | .ok reply => replyHandled lib root.countForward delivered received reply outgoing

/-- `handle_connection` from the request that it forwards to the router. -/
def submitHandled (lib : MessageLibrary) (root : MessageDaemonRoot) (visit : FaultyVisit)
    (received : ReceivedMessageRequest) (image : MessageRequest) : Handled :=
  let submission := submitEnding lib visit.answering visit.router image
  submissionHandled lib root submission.delivered received visit.outgoing submission.result

/-- `handle_connection` from the request that it has read. -/
def requestHandled (lib : MessageLibrary) (root : MessageDaemonRoot) (visit : FaultyVisit)
    (ingress : MessageIngressContext) (received : ReceivedMessageRequest) : Handled :=
  match visit.asking with
  | some detail => ⟨root, none, none, .error (.actor "forward message request" detail)⟩
  | none =>
    match root.stampRequest received.request ingress visit.now with
    | .error e => ⟨root, none, none, .error e⟩
    | .ok (.forward image) => submitHandled lib root visit received image
    | .ok (.reply reply) => replyHandled lib root none received reply visit.outgoing

/-- The connections in the order in which they are opened. -/
def numbered : ConnId → List FaultyVisit → List (ConnId × FaultyVisit)
  | _, [] => []
  | c, visit :: visits => (c, visit) :: numbered (c+1) visits

/-- A visit as far as its request is read. -/
theorem handle_eq {lib : MessageLibrary} {visit : FaultyVisit} {peer : PeerCredentials}
    (root : MessageDaemonRoot) (hc : visit.credentials = some peer) :
    handle lib root visit =
      match (readRequestEnding lib visit.reading visit.incoming).1 with
      | .error e => ⟨root, none, none, .error e⟩
      | .ok received =>
        requestHandled lib root visit ⟨visit.authority, peer⟩ received := by
  cases hq : (readRequestEnding lib visit.reading visit.incoming).1 with
  | error e => simp only [handle, hc, hq]
  | ok received =>
    cases ha : visit.asking with
    | some detail => simp only [handle, requestHandled, hc, hq, ha]
    | none =>
      cases hs : root.stampRequest received.request ⟨visit.authority, peer⟩ visit.now with
      | error e => simp only [handle, requestHandled, forwardEnding, hc, hq, ha, hs]
      | ok decision =>
        cases decision with
        | reply reply =>
          cases hw : writeReply lib received reply with
          | error e =>
            simp only [handle, requestHandled, forwardEnding, replyHandled, hc, hq, ha, hs, hw]
          | ok bytes =>
            cases ho : visit.outgoing <;>
              simp only [handle, requestHandled, forwardEnding, replyHandled, hc, hq, ha, hs, hw,
                ho]
        | forward image =>
          cases hr : (submitEnding lib visit.answering visit.router image).result with
          | error e =>
            simp only [handle, requestHandled, submitHandled, submissionHandled, forwardEnding, hc,
              hq, ha, hs, hr]
          | ok reply =>
            cases hw : writeReply lib received reply with
            | error e =>
              simp only [handle, requestHandled, submitHandled, submissionHandled, forwardEnding,
                replyHandled, hc, hq, ha, hs, hr, hw]
            | ok bytes =>
              cases ho : visit.outgoing <;>
                simp only [handle, requestHandled, submitHandled, submissionHandled,
                  forwardEnding, replyHandled, hc, hq, ha, hs, hr, hw, ho]

theorem Undisturbed.move (h : Undisturbed s c) (hc : t.connections = s.connections)
    (ho : t.opened = s.opened) : Undisturbed t c := by
  refine ⟨ho ▸ h.opened, fun c' hc' => ?_, ?_, ?_⟩
  · rw [hc]
    exact h.idle c' (ho ▸ hc')
  · rw [hc]
    exact h.reads
  · rw [hc]
    exact h.unsent

theorem Ends.after {out entries : List Action} {root : MessageDaemonRoot} {opened : ℕ}
    {result : Result Unit} (h : Ends d t entries root opened result)
    (hr : (machine d).Reaches s out t) : Ends d s (served out ++ entries) root opened result := by
  cases result with
  | error e =>
    obtain ⟨u, log, hu, rfl, hx⟩ := h
    exact ⟨u, out ++ log, hr.trans hu, served_append .., hx⟩
  | ok u =>
    obtain ⟨u, log, hu, rfl, hrest⟩ := h
    exact ⟨u, out ++ log, hr.trans hu, served_append .., hrest⟩

/-- Steps that leave nothing in the history, before others. -/
theorem Ends.after_silent {entries : List Action} {root : MessageDaemonRoot} {opened : ℕ}
    {result : Result Unit} (h : Ends d t entries root opened result)
    (hr : (machine d).Reaches s [] t) : Ends d s entries root opened result := h.after hr

theorem step_main (event : MainEvent) {out : List Action} (hx : s.phase.isExited = false)
    (h : stepMain d s event = some (t, out)) : (machine d).Reaches s out t := by
  have hs : (machine d).step s (.main event) = some (t, out) := by
    simp only [machine, step, hx, if_false, Bool.false_eq_true, h]
  exact .one hs

theorem step_client {event : ClientEvent} {out : List Action} (hx : s.phase.isExited = false)
    (h : stepClient d s event = some (t, out)) : (machine d).Reaches s out t := by
  have hs : (machine d).step s (.client event) = some (t, out) := by
    simp only [machine, step, hx, if_false, Bool.false_eq_true, h]
  exact .one hs

theorem step_router (d : Deployment) (event : RouterEvent) (hx : s.phase.isExited = false) :
    (machine d).Reaches s [] (stepRouter s event) := by
  have hs : (machine d).step s (.router event) = some (stepRouter s event, []) := by
    simp only [machine, step, hx, if_false, Bool.false_eq_true]
  exact .one hs

/-- The last step of a visit that goes wrong. -/
theorem Ends.error (event : MainEvent) {e : Error} (root : MessageDaemonRoot) (opened : ℕ)
    (hx : s.phase.isExited = false) (h : stepMain d s event = some (s.exit (.error e), [])) :
    Ends d s [] root opened (.error e) :=
  ⟨_, [], step_main event hx h, rfl, rfl⟩

@[simp] theorem serving_stream (s : Ingress) (c : ConnId) (phase : MainPhase) (stream : Duplex) :
    ((s.serving c phase stream).connections c).stream = stream := by
  simp [Ingress.serving, Ingress.setStream, Ingress.setConnection]

theorem serving_queued (s : Ingress) (c c' : ConnId) (phase : MainPhase) (stream : Duplex) :
    ((s.serving c phase stream).connections c').queued = (s.connections c').queued := by
  by_cases hc : c' = c
  · subst hc
    simp [Ingress.serving, Ingress.setStream, Ingress.setConnection]
  · simp [Ingress.serving, Ingress.setStream, Ingress.setConnection, hc]

theorem serving_idle (hi : Idle s) (c : ConnId) (phase : MainPhase) (stream : Duplex) :
    Idle (s.serving c phase stream) :=
  fun c' hc => (serving_queued s c c' phase stream).trans (hi c' hc)

theorem Undisturbed.serving (h : Undisturbed s c) (phase : MainPhase) {stream : Duplex}
    (hc : stream.closed = false) (hs : stream.sent = []) :
    Undisturbed (s.serving c phase stream) c := by
  refine ⟨h.opened, serving_idle h.idle c phase stream, ?_, ?_⟩
  · rw [serving_stream]
    exact hc
  · rw [serving_stream]
    exact hs

@[simp] theorem serving_setStream (s : Ingress) (c : ConnId) (phase : MainPhase)
    (stream stream' : Duplex) :
    (s.serving c phase stream).setStream c stream' = s.serving c phase stream' := by
  simp [Ingress.serving, Ingress.setStream, Ingress.setConnection, Function.update_idem]

@[simp] theorem serving_phase (s : Ingress) (c : ConnId) (phase phase' : MainPhase)
    (stream stream' : Duplex) :
    ({ s.serving c phase stream with phase := phase' } : Ingress).setStream c stream' =
      s.serving c phase' stream' := serving_setStream s c phase' stream stream'

theorem serving_self {phase : MainPhase} (h : s.phase = phase) (c : ConnId) :
    s.serving c phase (s.connections c).stream = s := by
  subst h
  simp [Ingress.serving, Ingress.setStream, Ingress.setConnection]

theorem serving_close (hc : c < s.opened) (d : Deployment) (phase : MainPhase)
    (stream : Duplex) : stepClient d (s.serving c phase stream) (.close c) =
      some (s.serving c phase stream.peerClose, []) := by
  have hopened : c < (s.serving c phase stream).opened := hc
  simp only [stepClient, if_pos hopened, serving_stream, serving_setStream]

section Calls

/-- The client reads what the daemon writes of its reply. -/
theorem writes_reply (hc : c < s.opened) :
    Writes (machine d) d.capacity fun stream rest => s.serving c (.replying c rest) stream where
  more {stream stream' rest rest' event} h hne := by
    have hstep : stepReply d (s.serving c (.replying c rest) stream) c rest event =
        some (s.serving c (.replying c rest') stream', []) := by
      cases rest' with
      | nil => exact absurd rfl hne
      | cons b rest' => simp only [stepReply, serving_stream, h, serving_phase]
    exact step_main (.write event) rfl hstep
  fetch stream rest count := by
    have hstep : stepClient d (s.serving c (.replying c rest) stream) (.read c count) =
        some (s.serving c (.replying c rest) (stream.peerRead count), []) := by
      have hopened : c < (s.serving c (.replying c rest) stream).opened := hc
      simp only [stepClient, if_pos hopened, serving_stream, serving_setStream]
    exact step_client rfl hstep

/-- The client closes where its request ends. -/
theorem reads_request (hc : c < s.opened) (ingress : MessageIngressContext) :
    Reads (machine d) d.lib limit fun stream got =>
      s.serving c (.reading c ingress got) stream where
  more {stream stream' got got' event} h := by
    have hstep : stepReadRequest d (s.serving c (.reading c ingress got) stream) c ingress got
        event = some (s.serving c (.reading c ingress got') stream') := by
      simp only [stepReadRequest, serving_stream, h, serving_phase]
    exact step_main (.read event) rfl (congrArg (Option.map (·, [])) hstep)
  close stream got := step_client rfl (serving_close hc d _ stream)

/-- The router reads what the daemon writes to it. -/
theorem writes_submit (s : Ingress) (c : ConnId) (received : ReceivedMessageRequest) :
    Writes (machine d) d.capacity fun stream rest =>
      ({ s with routerStream := stream, phase := .submitting c received rest } : Ingress) where
  more {stream stream' rest rest' event} h hne := by
    have hstep : stepSubmit d
        { s with routerStream := stream, phase := .submitting c received rest } c received rest
        event = some ({ s with
          routerStream := stream', phase := .submitting c received rest' }, []) := by
      cases rest' with
      | nil => exact absurd rfl hne
      | cons b rest' => simp only [stepSubmit, h]
    exact step_main (.write event) rfl hstep
  fetch stream rest count := step_router d (.read count) rfl

/-- The router closes where its answer ends. -/
theorem reads_answer (s : Ingress) (c : ConnId) (received : ReceivedMessageRequest) :
    Reads (machine d) d.lib limit fun stream got =>
      ({ s with routerStream := stream, phase := .awaiting c received got } : Ingress) where
  more {stream stream' got got' event} h := by
    have hstep : stepAwait d { s with routerStream := stream, phase := .awaiting c received got }
        c received got event = some ({ s with
          routerStream := stream', phase := .awaiting c received got' }, []) := by
      simp only [stepAwait, h]
    exact step_main (.read event) rfl hstep
  close stream got := step_router d .close rfl

/-- What a read comes to is what the codec finds in all the bytes, before this error. -/
theorem finishes_result {ending : IoError} {got rest : Bytes}
    {result : Except FrameFault MessageFrame} (hw : Within limit got)
    (h : Finishes d.lib limit ending got rest result) :
    (readFrameEnding d.lib .default ending (got ++ rest)).1 = result.mapError frameError := by
  rw [readFrameEnding_eq]
  cases h with
  | ended short none =>
    rw [none, List.append_nil, readFrame_ended short]
    rfl
  | refused large =>
    rw [readFrame_tooLarge hw large]
    rfl
  | undecodable whole decoded =>
    rw [readFrame_complete d.lib hw whole, decoded]
    rfl
  | frame whole decoded =>
    rw [readFrame_complete d.lib hw whole, decoded]
    rfl

end Calls

section Stages
variable {root : MessageDaemonRoot} {received : ReceivedMessageRequest}

theorem ends_exit (d : Deployment) (s : Ingress) (e : Error) (root : MessageDaemonRoot)
    (opened : ℕ) : Ends d (s.exit (.error e)) [] root opened (.error e) :=
  ⟨_, [], .refl _, rfl, rfl⟩

/-- The reply reaches a client that reads, or fails on one that has gone. -/
theorem startReply_ends (hcap : 0 < d.capacity) (ha : Undisturbed s c)
    (delivered : Option Bytes) (received : ReceivedMessageRequest) (reply : MessageReply)
    (outgoing : Option IoError) {handled : Handled}
    (hh : replyHandled d.lib s.root delivered received reply outgoing = handled) :
    Ends d (s.startReply d c received reply) (handled.replied.toList.map (.replied c))
      handled.root s.opened handled.result := by
  subst hh
  cases he : writeReply d.lib received reply with
  | error e =>
    simp only [Ingress.startReply, replyHandled, he]
    exact ends_exit d s e s.root s.opened
  | ok bytes =>
    have hb := d.lib.encode_ne_nil (writeFrame_ok he)
    have hwrites := @writes_reply d s c ha.opened
    have hstart : ({ s with phase := .replying c bytes } : Ingress) =
        s.serving c (.replying c bytes) (s.connections c).stream :=
      (serving_self rfl c).symm
    cases outgoing with
    | some e =>
      simp only [Ingress.startReply, replyHandled, he, hstart]
      have hbroken : stepReply d
          (s.serving c (.replying c bytes) (s.connections c).stream.peerClose) c bytes
          (.broken e) = some ((s.serving c (.replying c bytes)
            (s.connections c).stream.peerClose).exit (.error (.io e)), []) := by
        simp only [stepReply, serving_stream, writeStep, Duplex.peerClose, if_true]
      have hlast : Ends d (s.serving c (.replying c bytes) (s.connections c).stream.peerClose) []
          s.root s.opened (.error (.io e)) := Ends.error (.write (.broken e)) _ _ rfl hbroken
      exact hlast.after_silent (step_client rfl (serving_close ha.opened d _ _))
    | none =>
      simp only [Ingress.startReply, replyHandled, he, hstart]
      obtain ⟨stream', rest', stream'', hends⟩ := hwrites.finish hcap hb ha.reads
      have hlast : stepReply d (s.serving c (.replying c rest') stream') c rest' (.bytes 1) =
          some (s.serving c .polling stream'', [.replied c bytes]) := by
        have hsent : stream''.sent = bytes := by rw [hends.sent, ha.unsent, List.nil_append]
        simp only [stepReply, serving_stream, hends.last, serving_phase, hsent]
      have hreplied : (machine d).Reaches (s.serving c (.replying c rest') stream')
          [.replied c bytes] (s.serving c .polling stream'') :=
        step_main (.write (.bytes 1)) rfl hlast
      exact ⟨_, _, hreplied.after hends.reaches, rfl, rfl, rfl, rfl,
        serving_idle ha.idle c .polling stream''⟩

/-- The read that ends the router's answer decides on the reply. -/
theorem answer_ends (hcap : 0 < d.capacity) (ha : Undisturbed s c) {got : Bytes}
    (hp : s.phase = .awaiting c received got) {event : ReadEvent}
    {read : Except FrameFault MessageFrame}
    (hlast : readStep d.lib limit s.routerStream got event = some (.done read))
    (delivered : Option Bytes) (outgoing : Option IoError) {handled : Handled}
    (hh : submissionHandled d.lib s.root delivered received outgoing
      ((read.mapError frameError).bind fun frame =>
        replyFromFrameForExchange d.lib frame connectorExchange) = handled) :
    Ends d s (handled.replied.toList.map (.replied c)) handled.root s.opened handled.result := by
  have hrunning : s.phase.isExited = false := by rw [hp]; rfl
  have hstep : stepMain d s (.read event) = stepAwait d s c received got event := by
    simp only [stepMain, hp]
  cases read with
  | error fault =>
    subst hh
    simp only [stepAwait, hlast] at hstep
    exact Ends.error (.read event) _ _ hrunning hstep
  | ok frame =>
    cases hreply : replyFromFrameForExchange d.lib frame connectorExchange with
    | error e =>
      simp only [Except.mapError, Except.bind, hreply] at hh
      subst hh
      simp only [stepAwait, hlast, hreply] at hstep
      exact Ends.error (.read event) _ _ hrunning hstep
    | ok reply =>
      simp only [Except.mapError, Except.bind, hreply] at hh
      simp only [stepAwait, hlast, hreply] at hstep
      have hend := @startReply_ends d { s with root := s.root.countForward } c hcap
        (ha.move rfl rfl) delivered received reply outgoing handled hh
      exact hend.after (step_main (.read event) hrunning hstep)

/-- The router writes its answer, and closes if the daemon wants more than that. -/
theorem await_ends (hcap : 0 < d.capacity) (ha : Undisturbed s c)
    (hp : s.phase = .awaiting c received []) (hq : s.routerStream.pending = [])
    (ending : IoError) (answer : Bytes) (delivered : Option Bytes) (outgoing : Option IoError)
    {handled : Handled}
    (hh : submissionHandled d.lib s.root delivered received outgoing
      ((readFrameEnding d.lib .default ending answer).1.bind fun frame =>
        replyFromFrameForExchange d.lib frame connectorExchange) = handled) :
    Ends d s (handled.replied.toList.map (.replied c)) handled.root s.opened handled.result := by
  have hwritten : (machine d).Reaches s [] { s with
      routerStream := s.routerStream.peerWrite answer, phase := .awaiting c received [] } := by
    have hstep := @step_router s d (.write answer) (by rw [hp]; rfl)
    rw [← hp]
    exact hstep
  obtain ⟨stream', got', event, read, hends⟩ :=
    (@reads_answer d s c received).finish ending (s.routerStream.peerWrite answer)
      (within_nil limit)
  have hbytes : answer = got' ++ stream'.pending := by
    have hb := hends.bytes
    simpa [Duplex.peerWrite, hq] using hb
  have hread := finishes_result hends.within hends.finishes
  rw [← hbytes] at hread
  rw [hread] at hh
  have hend := @answer_ends d { s with
      routerStream := stream', phase := .awaiting c received got' } c received hcap
    (ha.move rfl rfl) got' rfl event read hends.last delivered outgoing handled hh
  exact hend.after_silent (hends.reaches.after hwritten)

theorem replyHandled_delivered (lib : MessageLibrary) (root : MessageDaemonRoot)
    (delivered : Option Bytes) (received : ReceivedMessageRequest) (reply : MessageReply)
    (outgoing : Option IoError) :
    (replyHandled lib root delivered received reply outgoing).delivered = delivered := by
  unfold replyHandled
  split
  · rfl
  · split <;> rfl

theorem submissionHandled_delivered (lib : MessageLibrary) (root : MessageDaemonRoot)
    (delivered : Option Bytes) (received : ReceivedMessageRequest) (outgoing : Option IoError)
    (result : Result MessageReply) :
    (submissionHandled lib root delivered received outgoing result).delivered = delivered := by
  cases result with
  | error e => rfl
  | ok reply => exact replyHandled_delivered ..

/-- The router takes the submission, and answers it, or it has gone. -/
theorem submitting_ends (hcap : 0 < d.capacity) (ha : Undisturbed s c) {image : MessageRequest}
    {bytes : Bytes} (hp : s.phase = .submitting c received bytes) (hq : s.routerStream = .fresh)
    (visit : FaultyVisit) (hcon : visit.router.connecting = none)
    (hw : writeFrame d.lib (requestFrameWithExchange d.lib connectorExchange image) = .ok bytes)
    {handled : Handled} (hh : submitHandled d.lib s.root visit received image = handled) :
    Ends d s (answeredEntries c handled) handled.root s.opened handled.result := by
  cases hwrite : visit.router.writing with
  | some e =>
    simp only [submitHandled, submitEnding, hcon, hw, hwrite, submissionHandled] at hh
    subst hh
    have hrunning : s.phase.isExited = false := by rw [hp]; rfl
    have hbroken : stepMain d { s with routerStream := s.routerStream.peerClose }
        (.write (.broken e)) = some (({ s with
          routerStream := s.routerStream.peerClose } : Ingress).exit (.error (.io e)), []) := by
      simp only [stepMain, hp, stepSubmit, writeStep, Duplex.peerClose, if_true]
    have hend : Ends d { s with routerStream := s.routerStream.peerClose } [] s.root s.opened
        (.error (.io e)) := Ends.error (.write (.broken e)) _ _ hrunning hbroken
    exact hend.after_silent (step_router d .close hrunning)
  | none =>
    have hstart : ({ s with
        routerStream := .fresh, phase := .submitting c received bytes } : Ingress) = s := by
      rw [← hp, ← hq]
    obtain ⟨stream', rest', stream'', hends⟩ := (@writes_submit d s c received).finish hcap
      (d.lib.encode_ne_nil (writeFrame_ok hw)) (show Duplex.fresh.closed = false from rfl)
    have hreaches := hends.reaches
    rw [hstart] at hreaches
    have hlast : stepSubmit d
        { s with routerStream := stream', phase := .submitting c received rest' } c received rest'
        (.bytes 1) = some ({ s with
          routerStream := stream'', phase := .awaiting c received [] },
            [.forwarded c bytes]) := by
      have hsent : stream''.sent = bytes := hends.sent
      simp only [stepSubmit, hends.last, hsent]
    have hforwarded : (machine d).Reaches
        { s with routerStream := stream', phase := .submitting c received rest' }
        [.forwarded c bytes]
        { s with routerStream := stream'', phase := .awaiting c received [] } :=
      step_main (.write (.bytes 1)) rfl hlast
    have hsubmission : submissionHandled d.lib s.root (some bytes) received visit.outgoing
        ((readFrameEnding d.lib .default visit.answering (visit.router.answer bytes)).1.bind
          fun frame => replyFromFrameForExchange d.lib frame connectorExchange) = handled := by
      rw [← hh]
      cases hf : (readFrameEnding d.lib .default visit.answering
          (visit.router.answer bytes)).1 <;>
        simp only [submitHandled, submitEnding, hcon, hw, hwrite, hf, Except.bind]
    have hend := @await_ends d { s with
        routerStream := stream'', phase := .awaiting c received [] } c received hcap
      (ha.move rfl rfl) rfl hends.pending visit.answering (visit.router.answer bytes)
      (some bytes) visit.outgoing handled hsubmission
    have hdelivered : answeredEntries c handled =
        served [.forwarded c bytes] ++ handled.replied.toList.map (.replied c) := by
      rw [answeredEntries, ← hsubmission, submissionHandled_delivered]
      rfl
    rw [hdelivered]
    exact hend.after (hforwarded.after hreaches)

/-- The router may not be there. -/
theorem submit_ends (hcap : 0 < d.capacity) (ha : Undisturbed s c) {image : MessageRequest}
    (hp : s.phase = .connecting c received image) (visit : FaultyVisit) {handled : Handled}
    (hh : submitHandled d.lib s.root visit received image = handled) :
    Ends d s (answeredEntries c handled) handled.root s.opened handled.result := by
  have hrunning : s.phase.isExited = false := by rw [hp]; rfl
  have hconnect : ∀ listener, stepMain d { s with routerListener := listener } .connect =
      (stepConnect d { s with routerListener := listener } c received image).map (·, []) := by
    intro listener
    simp only [stepMain, hp]
  cases hcon : visit.router.connecting with
  | some e =>
    simp only [submitHandled, submitEnding, hcon, submissionHandled] at hh
    subst hh
    have habsent := hconnect (.absent e)
    simp only [stepConnect, Option.map_some] at habsent
    have hend : Ends d { s with routerListener := .absent e } [] s.root s.opened
        (.error (.io e)) := Ends.error .connect _ _ hrunning habsent
    exact hend.after_silent (step_router d (.listen (.absent e)) hrunning)
  | none =>
    have hready := hconnect .ready
    have hlisten : (machine d).Reaches s [] { s with routerListener := .ready } :=
      step_router d (.listen .ready) hrunning
    cases hw : writeFrame d.lib (requestFrameWithExchange d.lib connectorExchange image) with
    | error e =>
      simp only [submitHandled, submitEnding, hcon, hw, submissionHandled] at hh
      subst hh
      simp only [stepConnect, hw, Option.map_some] at hready
      have hend : Ends d { s with routerListener := .ready } [] s.root s.opened (.error e) :=
        Ends.error .connect _ _ hrunning hready
      exact hend.after_silent hlisten
    | ok bytes =>
      simp only [stepConnect, hw, Option.map_some] at hready
      have hconnected : (machine d).Reaches { s with routerListener := .ready } [] { s with
          routerListener := .ready, routerStream := .fresh
          phase := .submitting c received bytes } := step_main .connect hrunning hready
      have hend := @submitting_ends d { s with
          routerListener := .ready, routerStream := .fresh
          phase := .submitting c received bytes } c received hcap (ha.move rfl rfl) image bytes
        rfl rfl visit hcon hw handled hh
      exact hend.after_silent (hconnected.after hlisten)

/-- The root answers, or its actor does not. -/
theorem request_ends (hcap : 0 < d.capacity) (ha : Undisturbed s c)
    {ingress : MessageIngressContext} (hp : s.phase = .forwarding c ingress received)
    (visit : FaultyVisit) {handled : Handled}
    (hh : requestHandled d.lib s.root visit ingress received = handled) :
    Ends d s (answeredEntries c handled) handled.root s.opened handled.result := by
  have hrunning : s.phase.isExited = false := by rw [hp]; rfl
  cases hasked : visit.asking with
  | some detail =>
    simp only [requestHandled, hasked] at hh
    subst hh
    have hfailed : stepMain d s (.askFailed detail) =
        some (s.exit (.error (.actor "forward message request" detail)), []) := by
      simp only [stepMain, hp]
    exact Ends.error (.askFailed detail) _ _ hrunning hfailed
  | none =>
    have hstamp : stepMain d s (.stamp visit.now) =
        some (stepStamp d s c ingress received visit.now, []) := by
      simp only [stepMain, hp]
    cases hd : s.root.stampRequest received.request ingress visit.now with
    | error e =>
      simp only [requestHandled, hasked, hd] at hh
      subst hh
      simp only [stepStamp, hd] at hstamp
      exact Ends.error (.stamp visit.now) _ _ hrunning hstamp
    | ok decision =>
      cases decision with
      | forward image =>
        simp only [requestHandled, hasked, hd] at hh
        simp only [stepStamp, hd] at hstamp
        have hend := @submit_ends d { s with phase := .connecting c received image } c received
          hcap (ha.move rfl rfl) image rfl visit handled hh
        exact hend.after_silent (step_main (.stamp visit.now) hrunning hstamp)
      | reply reply =>
        simp only [requestHandled, hasked, hd] at hh
        simp only [stepStamp, hd] at hstamp
        have hend := startReply_ends hcap ha none received reply visit.outgoing hh
        have hnone : handled.delivered = none := by
          rw [← hh]
          exact replyHandled_delivered ..
        simp only [answeredEntries, hnone, Option.toList_none, List.map_nil, List.nil_append]
        exact hend.after_silent (step_main (.stamp visit.now) hrunning hstamp)

/-- The client's bytes are its request or not. -/
theorem read_ends (hcap : 0 < d.capacity) (ha : Undisturbed s c)
    {ingress : MessageIngressContext} (hp : s.phase = .reading c ingress []) (visit : FaultyVisit)
    (hin : (s.connections c).stream.pending = visit.incoming) {handled : Handled}
    (hh : (match (readRequestEnding d.lib visit.reading visit.incoming).1 with
      | .error e => ⟨s.root, none, none, .error e⟩
      | .ok received => requestHandled d.lib s.root visit ingress received) = handled) :
    Ends d s (answeredEntries c handled) handled.root s.opened handled.result := by
  obtain ⟨stream', got', event, read, hends⟩ :=
    (@reads_request d s c ha.opened ingress).finish visit.reading (s.connections c).stream
      (within_nil limit)
  have hreaches : (machine d).Reaches s [] (s.serving c (.reading c ingress got') stream') := by
    have hr := hends.reaches
    rwa [serving_self hp] at hr
  have hbytes : visit.incoming = got' ++ stream'.pending := by
    rw [← hin, ← hends.bytes, List.nil_append]
  have hread := finishes_result hends.within hends.finishes
  rw [← hbytes] at hread
  have hlast := hends.last
  have hstep : stepMain d (s.serving c (.reading c ingress got') stream') (.read event) =
      (stepReadRequest d (s.serving c (.reading c ingress got') stream') c ingress got'
        event).map (·, []) := rfl
  cases read with
  | error fault =>
    have hrequest := readRequestEnding_error hread
    simp only [hrequest] at hh
    subst hh
    simp only [stepReadRequest, serving_stream, hlast, Option.map_some] at hstep
    have hend : Ends d (s.serving c (.reading c ingress got') stream') [] s.root s.opened
        (.error (frameError fault)) := Ends.error (.read event) _ _ rfl hstep
    exact hend.after_silent hreaches
  | ok frame =>
    have hrequest := readRequestEnding_frame hread
    simp only [stepReadRequest, serving_stream, hlast] at hstep
    cases hreceived : requestFromFrame d.lib frame with
    | error e =>
      simp only [hrequest, hreceived] at hh
      subst hh
      simp only [hreceived, Option.map_some] at hstep
      have hend : Ends d (s.serving c (.reading c ingress got') stream') [] s.root s.opened
          (.error e) := Ends.error (.read event) _ _ rfl hstep
      exact hend.after_silent hreaches
    | ok received =>
      simp only [hrequest, hreceived] at hh
      simp only [hreceived, Option.map_some] at hstep
      have hundisturbed : Undisturbed (s.serving c (.forwarding c ingress received) stream') c :=
        ha.serving _ ((hends.closed ⟨frame, rfl⟩).trans ha.reads) (hends.sent.trans ha.unsent)
      have hend := @request_ends d (s.serving c (.forwarding c ingress received) stream') c
        received hcap hundisturbed ingress rfl visit handled hh
      exact hend.after_silent ((step_main (.read event) rfl hstep).after hreaches)

end Stages

section Arrival

/-- While no connection waits but the newest, that one is found at its own listener alone. -/
theorem waiting_newest (hi : ∀ c' < c, (s.connections c').queued = false) (ho : s.opened = c+1)
    (hq : (s.connections c).queued = true) (k : ℕ) :
    s.waiting k = if (s.connections c).listener = k then some c else none := by
  have hbefore : (List.range c).find? (fun c' =>
      (s.connections c').queued && (s.connections c').listener == k) = none := by
    rw [List.find?_eq_none]
    intro c' hc'
    simp [hi c' (List.mem_range.mp hc')]
  rw [Ingress.waiting, ho, List.range_succ, List.find?_append, hbefore]
  by_cases hk : (s.connections c).listener = k <;> simp [hq, hk]

/-- The scan comes to a listener past those at which nothing waits. -/
theorem scan_reaches {k : ℕ} (hk : k < d.bindings.length) (hw : ∀ j < k, s.waiting j = none) :
    (machine d).Reaches { s with phase := .scanning 0 } [] { s with phase := .scanning k } := by
  induction k with
  | zero => exact .refl _
  | succ k ih =>
    have hrest := ih (by omega) fun j hj => hw j (by omega)
    have hstep : stepScan d { s with phase := .scanning k } k =
        ({ s with phase := .scanning (k+1) }, []) := by
      have hnone : ({ s with phase := .scanning k } : Ingress).waiting k = none :=
        hw k (Nat.lt_succ_self k)
      have hlt : k < d.bindings.length := by omega
      simp only [stepScan, List.getElem?_eq_getElem hlt, hnone]
    have hnext : (machine d).Reaches { s with phase := .scanning k } []
        { s with phase := .scanning (k+1) } :=
      step_main .accept rfl (congrArg some hstep)
    exact hnext.after hrest

/-- The connection of a client that has written all of this before it is accepted. -/
def Ingress.arrived (s : Ingress) (k : ℕ) (peer : PeerCredentials) (incoming : Bytes)
    (queued : Bool) : Ingress :=
  { s with
    opened := s.opened+1
    connections := Function.update s.connections s.opened
      ⟨k, peer, Duplex.fresh.peerWrite incoming, queued⟩ }

theorem arrived_idle (hi : Idle s) (k : ℕ) (peer : PeerCredentials) (incoming : Bytes) :
    Idle (s.arrived k peer incoming false) := by
  intro c hc
  have hlt : c < s.opened+1 := hc
  by_cases he : c = s.opened
  · simp [Ingress.arrived, he]
  · have hold := hi c (by omega)
    simpa [Ingress.arrived, he] using hold

theorem arrived_waiting (hi : Idle s) (k : ℕ) (peer : PeerCredentials) (incoming : Bytes)
    (j : ℕ) :
    (s.arrived k peer incoming true).waiting j = if k = j then some s.opened else none := by
  have hnewest := @waiting_newest (s.arrived k peer incoming true) s.opened
    (fun c hc => by
      have hne : c ≠ s.opened := ne_of_lt hc
      have hold := hi c hc
      simpa [Ingress.arrived, hne] using hold)
    rfl (by simp [Ingress.arrived]) j
  simpa [Ingress.arrived] using hnewest

/-- A client connects and writes, and the daemon, which has nothing else to do, accepts it. -/
theorem arrival (hp : s.phase = .polling) (hi : Idle s) {k : ℕ}
    {authority : MessageIngressAuthority} (hb : d.bindings[k]? = some authority)
    (peer : PeerCredentials) (incoming : Bytes) :
    (machine d).Reaches s [.connected s.opened k peer, .accepted s.opened]
      { s.arrived k peer incoming false with phase := .opening s.opened authority } := by
  have hrunning : s.phase.isExited = false := by rw [hp]; rfl
  have hk : k < d.bindings.length := (List.getElem?_eq_some_iff.mp hb).1
  have hconnect : stepClient d s (.connect k peer) =
      some (s.arrived k peer [] true, [.connected s.opened k peer]) := by
    simp only [stepClient, if_pos hk]
    rfl
  have hwrite : stepClient d (s.arrived k peer [] true) (.write s.opened incoming) =
      some (s.arrived k peer incoming true, []) := by
    have hopened : s.opened < (s.arrived k peer [] true).opened := Nat.lt_succ_self _
    simp only [stepClient, if_pos hopened]
    simp [Ingress.arrived, Ingress.setStream, Ingress.setConnection, Duplex.peerWrite,
      Duplex.fresh]
  have hpoll : stepMain d (s.arrived k peer incoming true) (.poll false) =
      some ({ s.arrived k peer incoming true with phase := .scanning 0 }, []) := by
    have hphase : (s.arrived k peer incoming true).phase = .polling := hp
    simp only [stepMain, hphase, Bool.false_eq_true, if_false]
  have hscan := @scan_reaches d (s.arrived k peer incoming true) k hk fun j hj => by
    rw [arrived_waiting hi, if_neg (by omega)]
  have haccept : stepScan d { s.arrived k peer incoming true with phase := .scanning k } k =
      ({ s.arrived k peer incoming false with phase := .opening s.opened authority },
        [.accepted s.opened]) := by
    have hwaiting : ({ s.arrived k peer incoming true with
        phase := .scanning k } : Ingress).waiting k = some s.opened :=
      (arrived_waiting hi k peer incoming k).trans (if_pos rfl)
    simp only [stepScan, hb, hwaiting]
    simp [Ingress.arrived, Ingress.setConnection]
  have haccepted : (machine d).Reaches { s.arrived k peer incoming true with phase := .scanning k }
      [.accepted s.opened]
      { s.arrived k peer incoming false with phase := .opening s.opened authority } :=
    step_main .accept rfl (congrArg some haccept)
  have hpolled := @step_main d (s.arrived k peer incoming true) _ (.poll false) _ hrunning hpoll
  exact (step_client hrunning hconnect).trans
    (((haccepted.after hscan).after hpolled).after (step_client hrunning hwrite))

end Arrival

section Visits

/-- Whatever a visit comes to when it is served alone, some run serves a new connection to that. -/
theorem visit_ends (hcap : 0 < d.capacity) (hp : s.phase = .polling) (hi : Idle s)
    (visit : FaultyVisit) (hv : visit.authority ∈ d.bindings) {handled : Handled}
    (hh : handle d.lib s.root visit = handled) :
    Ends d s (trace s.opened handled) handled.root (s.opened+1) handled.result := by
  obtain ⟨k, hb⟩ := List.mem_iff_getElem?.mp hv
  cases hc : visit.credentials with
  | none =>
    simp only [handle, hc] at hh
    subst hh
    have hstep : stepMain d { s.arrived k ⟨⟨0⟩⟩ visit.incoming false with
        phase := .opening s.opened visit.authority } (.credentials false) =
        some (({ s.arrived k ⟨⟨0⟩⟩ visit.incoming false with
          phase := .opening s.opened visit.authority } : Ingress).exit
            (.error .peerCredentials), []) := rfl
    have hend := Ends.error (.credentials false) s.root (s.opened+1) rfl hstep
    exact hend.after (arrival hp hi hb ⟨⟨0⟩⟩ visit.incoming)
  | some peer =>
    rw [handle_eq s.root hc] at hh
    have hstep : stepMain d { s.arrived k peer visit.incoming false with
        phase := .opening s.opened visit.authority } (.credentials true) =
        some ({ s.arrived k peer visit.incoming false with
          phase := .reading s.opened ⟨visit.authority, peer⟩ [] }, []) := by
      simp [stepMain, Ingress.arrived]
    have hundisturbed : Undisturbed (s.arrived k peer visit.incoming false) s.opened :=
      ⟨Nat.lt_succ_self _, arrived_idle hi k peer visit.incoming,
        by simp [Ingress.arrived, Duplex.peerWrite, Duplex.fresh],
        by simp [Ingress.arrived, Duplex.peerWrite, Duplex.fresh]⟩
    have hend := @read_ends d { s.arrived k peer visit.incoming false with
        phase := .reading s.opened ⟨visit.authority, peer⟩ [] } s.opened hcap
      (hundisturbed.move rfl rfl) ⟨visit.authority, peer⟩ rfl visit
      (by simp [Ingress.arrived, Duplex.peerWrite, Duplex.fresh]) handled hh
    exact (hend.after_silent (step_main (.credentials true) rfl hstep)).after
      (arrival hp hi hb peer visit.incoming)

/-- Some run leaves this in the history and comes to this: to the error, or back to the poll. -/
def Comes (d : Deployment) (s : Ingress) (past : List Action) : Result MessageDaemonRoot → Prop
  | .error e => ∃ t log, (machine d).Reaches s log t ∧ served log = past ∧
      t.phase = .exited (.error e)
  | .ok root => ∃ t log, (machine d).Reaches s log t ∧ served log = past ∧ t.phase = .polling ∧
      t.root = root

theorem Comes.after {past out : List Action} {result : Result MessageDaemonRoot}
    (h : Comes d t past result) (hr : (machine d).Reaches s out t) :
    Comes d s (served out ++ past) result := by
  cases result with
  | error e =>
    obtain ⟨u, log, hu, rfl, hx⟩ := h
    exact ⟨u, out ++ log, hr.trans hu, served_append .., hx⟩
  | ok root =>
    obtain ⟨u, log, hu, rfl, hrest⟩ := h
    exact ⟨u, out ++ log, hr.trans hu, served_append .., hrest⟩

/-- One visit after the other, each by a client that connects when the daemon is idle. -/
theorem visits_come (hcap : 0 < d.capacity) {visits : List FaultyVisit}
    (hv : ∀ visit ∈ visits, visit.authority ∈ d.bindings) (hp : s.phase = .polling)
    (hi : Idle s) :
    Comes d s (transcript d.lib s.root (numbered s.opened visits)).1
      (transcript d.lib s.root (numbered s.opened visits)).2 := by
  induction visits generalizing s with
  | nil => exact ⟨s, [], .refl s, rfl, hp, rfl⟩
  | cons visit visits ih =>
    have hend := visit_ends hcap hp hi visit (hv visit List.mem_cons_self) rfl
    rw [numbered, transcript_cons]
    cases hr : (handle d.lib s.root visit).result with
    | error e =>
      rw [hr] at hend
      exact hend
    | ok u =>
      rw [hr] at hend
      obtain ⟨t, log, hreaches, hserved, hphase, hroot, hopened, hidle⟩ := hend
      have hrest := ih (fun v hm => hv v (List.mem_cons_of_mem _ hm)) hphase hidle
      rw [hroot, hopened] at hrest
      have hafter := hrest.after hreaches
      rwa [hserved] at hafter

/-- What `handle_connection`, with any of its errors, makes of any connections that are served one
after the other is what the accept loop does in some run, and after any of its polls the daemon
may be stopped and return what the stop of its root comes to. -/
theorem serial_realised (hcap : 0 < d.capacity) (listen : RouterListener)
    {visits : List FaultyVisit} (hv : ∀ visit ∈ visits, visit.authority ∈ d.bindings) :
    (∀ past e, transcript d.lib (.new d.ownerIdentity) (numbered 0 visits) = (past, .error e) →
      ∃ events s log, (machine d).run (initial d listen) events = some (s, log) ∧
        served log = past ∧ s.phase = .exited (.error e)) ∧
    ∀ past root, transcript d.lib (.new d.ownerIdentity) (numbered 0 visits) = (past, .ok root) →
      ∀ outcome, ∃ events s log, (machine d).run (initial d listen) events = some (s, log) ∧
        served log = past ∧ s.root = root ∧ s.phase = .exited (stopResult outcome) := by
  have hidle : Idle (initial d listen) := fun c hc => absurd hc (Nat.not_lt_zero c)
  have hcomes := @visits_come d (initial d listen) hcap visits hv rfl hidle
  have hstart : transcript d.lib (initial d listen).root (numbered (initial d listen).opened
      visits) = transcript d.lib (.new d.ownerIdentity) (numbered 0 visits) := rfl
  rw [hstart] at hcomes
  constructor
  · intro past e h
    rw [h] at hcomes
    obtain ⟨s, log, ⟨events, hr⟩, hserved, hphase⟩ := hcomes
    exact ⟨events, s, log, hr, hserved, hphase⟩
  · intro past root h outcome
    rw [h] at hcomes
    obtain ⟨s, log, hreaches, hserved, hphase, hroot⟩ := hcomes
    have hpoll : stepMain d s (.poll true) = some ({ s with phase := .stopping }, []) := by
      simp only [stepMain, hphase, if_true]
    have hstop : stepMain d { s with phase := .stopping } (.stopRoot outcome) =
        some (({ s with phase := .stopping } : Ingress).exit (stopResult outcome), []) := by
      simp only [stepMain, stopRoot_eq]
    have hrunning : s.phase.isExited = false := by rw [hphase]; rfl
    obtain ⟨events, hr⟩ := hreaches.trans ((step_main (.stopRoot outcome) rfl hstop).after
      (step_main (.poll true) hrunning hpoll))
    rw [List.append_nil] at hr
    exact ⟨events, _, log, hr, hserved, hroot, rfl⟩

/-- The owner's submission, served alone. -/
def ownerVisit : FaultyVisit :=
  .plain ⟨.externalPeer, some ⟨⟨1000⟩⟩, TableLibrary.frameBytes 0, 0,
    routerWriting (TableLibrary.frameBytes 2), none⟩

theorem owner_realised : ∃ events s log,
    (machine ownerDeployment).run (initial ownerDeployment .ready) events = some (s, log) ∧
      served log = [.accepted 0, .forwarded 0 (TableLibrary.frameBytes 1),
        .replied 0 (TableLibrary.frameBytes 2)] ∧
      s.root = (MessageDaemonRoot.new (.unixUser ⟨1000⟩)).countForward ∧
      s.phase = .exited (.ok ()) :=
  (@serial_realised ownerDeployment (by decide) .ready [ownerVisit]
    (by simp [ownerVisit, FaultyVisit.plain, Deployment.bindings])).2 _ _ rfl
      (.ok ⟨.dropped, .stopped, ""⟩)

end Visits

end PersonaMessage.IngressMachine
