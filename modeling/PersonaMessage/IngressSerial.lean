import PersonaMessage.ConnectionFaults
import PersonaMessage.IngressProvenance

/-! The accept loop, however its steps and those of its peers interleave, does to its connections
what `handle_connection` does to each of them alone, in the order in which they are accepted. -/
namespace PersonaMessage.IngressMachine
open ByteStream SignalFrames FrameProgress RouterCodec SignalRouterFrameCodec DaemonStamping
  DaemonConnection ConnectionFaults Transitions

def Action.isServed : Action → Bool
  | .accepted _ => true
  | .forwarded _ _ => true
  | .replied _ _ => true
  | _ => false

/-- What the daemon itself has done to its connections. -/
def served (log : List Action) : List Action := log.filter Action.isServed

/-- What one connection leaves there. -/
def trace (c : ConnId) (handled : Handled) : List Action :=
  .accepted c :: (handled.delivered.toList.map (.forwarded c) ++
    handled.replied.toList.map (.replied c))

/-- The connections served one after the other, and the root that this leaves. -/
def transcript (lib : MessageLibrary) (root : MessageDaemonRoot)
    (visits : List (ConnId × FaultyVisit)) : List Action × Result MessageDaemonRoot :=
  let result := serveAll lib root (visits.map Prod.snd)
  (((visits.map Prod.fst).zip result.1).flatMap fun (c, handled) => trace c handled, result.2)

/-- The visit is that of a connection: under the authority of its listener, from its own peer,
with the bytes read from it and the answer read for it. -/
structure VisitOf (d : Deployment) (c : ConnId) (v : Seen) (h : List Action)
    (visit : FaultyVisit) : Prop where
  authority : d.bindings[v.listener]? = some visit.authority
  credentials : ∀ peer, visit.credentials = some peer → peer = v.peer
  incoming : visit.incoming = v.consumed
  answered : ∀ answer, .answered c answer ∈ h → visit.router = routerWriting answer

/-- The history of the connection that is being served. -/
def MainPhase.history (phase : MainPhase) (log : List Action) : List Action :=
  match phase.current with
  | none => []
  | some c => IngressMachine.history c log

/-- The root while a connection is served: the answer to its submission has been counted. -/
def counted (root : MessageDaemonRoot) (h : List Action) : MessageDaemonRoot :=
  if h.any Action.isAnswered then root.countForward else root

/-- A running daemon has served these visits, and serves the current connection on top of them. -/
structure Serial (d : Deployment) (log : List Action) (s : Ingress)
    (visits : List (ConnId × FaultyVisit)) (past : List Action) (root : MessageDaemonRoot) :
    Prop where
  visited : ∀ p ∈ visits, VisitOf d p.1 (s.seen p.1) (history p.1 log) p.2
  idle : ∀ p ∈ visits, (s.seen p.1).queued = false ∧ p.1 < s.opened ∧ s.phase.current ≠ some p.1
  settled : transcript d.lib (.new d.ownerIdentity) visits = (past, .ok root)
  logged : served log = past ++ served (s.phase.history log)
  forwards : s.root = counted root (s.phase.history log)

/-- What `run` returns once the root has been asked to stop. -/
def stopResult : Except String ActorTerminalOutcome → Result Unit
  | .error detail => .error (.actor "stop message daemon root" detail)
  | .ok outcome => assertStoppedOutcome outcome

/-- Why `run` has returned, and what. -/
inductive Returned (d : Deployment) (log : List Action) (root : MessageDaemonRoot)
    (visits : List (ConnId × FaultyVisit)) : Result Unit → Prop
  | stopped (outcome : Except String ActorTerminalOutcome)
      (past : transcript d.lib (.new d.ownerIdentity) visits = (served log, .ok root)) :
      Returned d log root visits (stopResult outcome)
  | acceptFailed {e : IoError} (failed : e ≠ .wouldBlock)
      (past : transcript d.lib (.new d.ownerIdentity) visits = (served log, .ok root)) :
      Returned d log root visits (.error (.io e))
  | connectionFailed {before : List (ConnId × FaultyVisit)} {past : List Action}
      {start : MessageDaemonRoot} {c : ConnId} {visit : FaultyVisit} {e : Error}
      (last : visits = before ++ [(c, visit)])
      (settled : transcript d.lib (.new d.ownerIdentity) before = (past, .ok start))
      (failed : (handle d.lib start visit).result = .error e)
      (logged : served log = past ++ trace c (handle d.lib start visit)) :
      Returned d log root visits (.error e)

/-- The run is the serial run of its visits, up to where it is in the current one. -/
inductive Serialised (d : Deployment) (log : List Action) (s : Ingress)
    (visits : List (ConnId × FaultyVisit)) : Prop
  | running {past : List Action} {root : MessageDaemonRoot} (exited : s.phase.isExited = false)
      (serial : Serial d log s visits past root)
  | returned {result : Result Unit} (exited : s.phase = .exited result)
      (visited : ∀ p ∈ visits, VisitOf d p.1 (s.seen p.1) (history p.1 log) p.2)
      (returned : Returned d log s.root visits result)

variable {d : Deployment} {log out past : List Action} {s t : Ingress} {root : MessageDaemonRoot}
  {visits : List (ConnId × FaultyVisit)} {c : ConnId}

theorem stopRoot_eq (s : Ingress) (outcome : Except String ActorTerminalOutcome) :
    stopRoot s outcome = s.exit (stopResult outcome) := by
  cases outcome <;> rfl

theorem served_append (log out : List Action) : served (log ++ out) = served log ++ served out :=
  List.filter_append ..

/-- One more visit after those that went well. -/
theorem serveAll_snoc {lib : MessageLibrary} {start root : MessageDaemonRoot}
    {visits : List FaultyVisit} {handled : List Handled}
    (h : serveAll lib start visits = (handled, .ok root)) (visit : FaultyVisit) :
    handled.length = visits.length ∧
      serveAll lib start (visits ++ [visit]) = (handled ++ [handle lib root visit],
        (handle lib root visit).result.map fun _ => (handle lib root visit).root) := by
  induction visits generalizing start handled with
  | nil =>
    obtain ⟨rfl, hroot⟩ := Prod.mk.inj h
    obtain rfl := Except.ok.inj hroot
    refine ⟨rfl, ?_⟩
    simp only [List.nil_append, serveAll]
    rcases (handle lib start visit).result with e | u <;> rfl
  | cons first visits ih =>
    cases hr : (handle lib start first).result with
    | error e =>
      simp only [serveAll, hr] at h
      cases (Prod.mk.inj h).2
    | ok u =>
      simp only [serveAll, hr] at h
      obtain ⟨rfl, hroot⟩ := Prod.mk.inj h
      obtain ⟨hl, hs⟩ := ih (Prod.ext rfl hroot)
      simp only [List.cons_append, serveAll, hr, hs, List.length_cons, hl, and_self]

theorem transcript_cons (lib : MessageLibrary) (root : MessageDaemonRoot) (c : ConnId)
    (visit : FaultyVisit) (visits : List (ConnId × FaultyVisit)) :
    transcript lib root ((c, visit) :: visits) =
      match (handle lib root visit).result with
      | .error e => (trace c (handle lib root visit), .error e)
      | .ok () =>
        (trace c (handle lib root visit) ++ (transcript lib (handle lib root visit).root visits).1,
          (transcript lib (handle lib root visit).root visits).2) := by
  cases hr : (handle lib root visit).result <;> simp [transcript, serveAll, hr]

/-- The first visit of a transcript without a failure, and what is left of it. -/
theorem transcript_cons_ok {lib : MessageLibrary} {start : MessageDaemonRoot}
    {first : ConnId × FaultyVisit}
    (h : transcript lib start (first :: visits) = (past, .ok root)) :
    (handle lib start first.2).result = .ok () ∧
      ∃ later, past = trace first.1 (handle lib start first.2) ++ later ∧
        transcript lib (handle lib start first.2).root visits = (later, .ok root) := by
  rw [transcript_cons] at h
  cases hr : (handle lib start first.2).result with
  | error e =>
    simp only [hr] at h
    cases (Prod.mk.inj h).2
  | ok u =>
    simp only [hr] at h
    obtain ⟨rfl, hroot⟩ := Prod.mk.inj h
    exact ⟨rfl, _, rfl, Prod.ext rfl hroot⟩

theorem transcript_snoc {lib : MessageLibrary} {start : MessageDaemonRoot}
    (h : transcript lib start visits = (past, .ok root)) (c : ConnId) (visit : FaultyVisit) :
    transcript lib start (visits ++ [(c, visit)]) =
      (past ++ trace c (handle lib root visit),
        (handle lib root visit).result.map fun _ => (handle lib root visit).root) := by
  obtain ⟨hpast, hroot⟩ := Prod.mk.inj h
  obtain ⟨hl, hs⟩ := serveAll_snoc (Prod.ext rfl hroot) visit
  have hlen : (visits.map Prod.fst).length =
      (serveAll lib start (visits.map Prod.snd)).1.length := by
    rw [hl, List.length_map, List.length_map]
  simp only [transcript, List.map_append, List.map_cons, List.map_nil, hs,
    List.zip_append hlen, List.flatMap_append, hpast]
  simp

theorem counted_ownerIdentity (root : MessageDaemonRoot) (h : List Action) :
    (counted root h).ownerIdentity = root.ownerIdentity := by
  unfold counted
  split_ifs <;> rfl

theorem history_nil {phase : MainPhase} (h : phase.current = none) (log : List Action) :
    phase.history log = [] := by
  simp only [MainPhase.history, h]

theorem history_current {phase : MainPhase} (h : phase.current = some c) (log : List Action) :
    phase.history log = history c log := by
  simp only [MainPhase.history, h]

/-- Nothing is served in this phase, and everything so far is what the visits make of it. -/
theorem Serial.between (hs : Serial d log s visits past root) (h : s.phase.current = none) :
    transcript d.lib (.new d.ownerIdentity) visits = (served log, .ok s.root) := by
  have hlog := hs.logged
  have hroot := hs.forwards
  rw [history_nil h] at hlog hroot
  have hserved : served [] = [] := rfl
  have hcounted : counted root [] = root := rfl
  rw [hserved, List.append_nil] at hlog
  rw [hcounted] at hroot
  rw [hlog, hroot]
  exact hs.settled

/-- The owner that the visits are served for. -/
theorem Serial.owner (hs : Serial d log s visits past root) (hi : Inv d log s) :
    root.ownerIdentity = d.ownerIdentity := by
  rw [← hi.owner, hs.forwards, counted_ownerIdentity]

/-- A step that leaves the served connections, the log and the root as they were. -/
theorem Serial.move (hs : Serial d log s visits past root) (hseen : t.seen = s.seen)
    (hopened : t.opened = s.opened) (hroot : t.root = s.root)
    (hcurrent : t.phase.current = s.phase.current) : Serial d log t visits past root := by
  have hh : t.phase.history log = s.phase.history log := by
    simp only [MainPhase.history, hcurrent]
  refine ⟨?_, ?_, hs.settled, ?_, ?_⟩
  · rw [hseen]
    exact hs.visited
  · rw [hseen, hopened, hcurrent]
    exact hs.idle
  · rw [hh]
    exact hs.logged
  · rw [hroot, hh]
    exact hs.forwards

/-- What was visited before stays as it was while another connection is served. -/
theorem Serial.visited_step (hs : Serial d log s visits past root)
    (hcurrent : s.phase.current = some c) (hseen : ∀ c', c' ≠ c → t.seen c' = s.seen c')
    (ho : ∀ a ∈ out, a.conn = c) (p : ConnId × FaultyVisit) (hp : p ∈ visits) :
    p.1 ≠ c ∧ VisitOf d p.1 (t.seen p.1) (history p.1 (log ++ out)) p.2 := by
  have hne : p.1 ≠ c := fun he => (hs.idle p hp).2.2 (he ▸ hcurrent)
  refine ⟨hne, ?_⟩
  rw [hseen _ hne, history_append, history_other ho hne, List.append_nil]
  exact hs.visited p hp

/-- The log grows by what the current connection's own history grows by. -/
theorem Serial.logged_step (hs : Serial d log s visits past root)
    (hcurrent : s.phase.current = some c) (ho : ∀ a ∈ out, a.conn = c) :
    served (log ++ out) = past ++ served (history c (log ++ out)) := by
  have hlog := hs.logged
  rw [history_current hcurrent] at hlog
  rw [history_append, history_self ho, served_append, served_append, hlog, List.append_assoc]

/-- A step of the daemon at the connection it serves. -/
theorem Serial.serve (hs : Serial d log s visits past root) (hcurrent : s.phase.current = some c)
    (hcurrent' : t.phase.current = some c) (hopened : t.opened = s.opened)
    (hseen : ∀ c', c' ≠ c → t.seen c' = s.seen c') (ho : ∀ a ∈ out, a.conn = c)
    (hroot : t.root = counted root (history c (log ++ out))) :
    Serial d (log ++ out) t visits past root := by
  refine ⟨fun p hp => (hs.visited_step hcurrent hseen ho p hp).2, fun p hp => ?_, hs.settled,
    ?_, ?_⟩
  · have hne := (hs.visited_step hcurrent hseen ho p hp).1
    rw [hseen _ hne, hopened, hcurrent', ← hcurrent]
    exact hs.idle p hp
  · rw [history_current hcurrent']
    exact hs.logged_step hcurrent ho
  · rw [history_current hcurrent']
    exact hroot

/-- The end of a visit that went well. -/
theorem Serial.finish (hs : Serial d log s visits past root) (hcurrent : s.phase.current = some c)
    (hcurrent' : t.phase.current = none) (hopened : t.opened = s.opened)
    (hseen : ∀ c', c' ≠ c → t.seen c' = s.seen c') (ho : ∀ a ∈ out, a.conn = c)
    (hc : c < t.opened) (hq : (t.seen c).queued = false) {visit : FaultyVisit}
    {delivered replied : Option Bytes}
    (hv : VisitOf d c (t.seen c) (history c (log ++ out)) visit)
    (hh : handle d.lib root visit = ⟨t.root, delivered, replied, .ok ()⟩)
    (htrace : served (history c (log ++ out)) = trace c (handle d.lib root visit)) :
    ∃ past, Serial d (log ++ out) t (visits ++ [(c, visit)]) past t.root := by
  have hn : t.phase.history (log ++ out) = [] := history_nil hcurrent' _
  refine ⟨past ++ trace c (handle d.lib root visit), fun p hp => ?_, fun p hp => ?_, ?_, ?_, ?_⟩
  · rcases List.mem_append.mp hp with hp | hp
    · exact (hs.visited_step hcurrent hseen ho p hp).2
    · obtain rfl := List.mem_singleton.mp hp
      exact hv
  · rw [hcurrent']
    rcases List.mem_append.mp hp with hp | hp
    · have hne := (hs.visited_step hcurrent hseen ho p hp).1
      rw [hseen _ hne, hopened]
      exact ⟨(hs.idle p hp).1, (hs.idle p hp).2.1, by simp⟩
    · obtain rfl := List.mem_singleton.mp hp
      exact ⟨hq, hc, by simp⟩
  · rw [transcript_snoc hs.settled, hh]
    rfl
  · rw [hn, hs.logged_step hcurrent ho, htrace]
    exact (List.append_nil _).symm
  · rw [hn]
    rfl

/-- The end of a visit that went wrong, which is the end of the run. -/
theorem Serial.fail (hs : Serial d log s visits past root) (hcurrent : s.phase.current = some c)
    (root' : MessageDaemonRoot) {e : Error} (ho : ∀ a ∈ out, a.conn = c) {visit : FaultyVisit}
    (hv : VisitOf d c (s.seen c) (history c (log ++ out)) visit)
    (hh : (handle d.lib root visit).result = .error e)
    (htrace : served (history c (log ++ out)) = trace c (handle d.lib root visit)) :
    Serialised d (log ++ out) (({ s with root := root' } : Ingress).exit (.error e))
      (visits ++ [(c, visit)]) := by
  refine .returned rfl (fun p hp => ?_) (.connectionFailed rfl hs.settled hh ?_)
  · rcases List.mem_append.mp hp with hp | hp
    · have hseen : ∀ c', c' ≠ c →
          (({ s with root := root' } : Ingress).exit (.error e)).seen c' = s.seen c' :=
        fun _ _ => rfl
      exact (hs.visited_step hcurrent hseen ho p hp).2
    · obtain rfl := List.mem_singleton.mp hp
      exact hv
  · rw [hs.logged_step hcurrent ho, htrace]

theorem running_of_current {phase : MainPhase} (h : phase.current = some c) :
    phase.isExited = false := by
  cases phase with
  | exited result => cases h
  | _ => rfl

/-- A step of the daemon at the connection it serves that nobody sees. -/
theorem Serial.stay (hs : Serial d log s visits past root) (hcurrent : s.phase.current = some c)
    (hcurrent' : t.phase.current = some c) (hopened : t.opened = s.opened)
    (hseen : ∀ c', c' ≠ c → t.seen c' = s.seen c') (hroot : t.root = s.root) :
    Serialised d (log ++ []) t visits := by
  refine .running (running_of_current hcurrent')
    (hs.serve hcurrent hcurrent' hopened hseen (List.forall_mem_nil _) ?_)
  rw [hroot, List.append_nil, ← history_current hcurrent]
  exact hs.forwards

/-- The visit of a connection in which, as far as is known, nothing goes wrong. -/
def visitOf (authority : MessageIngressAuthority) (v : Seen) : FaultyVisit :=
  ⟨⟨authority, some v.peer, v.consumed, 0, routerWriting [], none⟩, .unexpectedEof, none,
    .unexpectedEof⟩

/-- The root decides for the daemon's owner, whatever it has counted. -/
theorem Decided.stamp {v : Seen} {received : ReceivedMessageRequest} {decision : ForwardDecision}
    (h : Decided d v received decision) (ho : root.ownerIdentity = d.ownerIdentity) :
    ∃ authority now, d.bindings[v.listener]? = some authority ∧
      root.stampRequest received.request ⟨authority, v.peer⟩ now = .ok decision ∧
      ∀ ending, readRequestEnding d.lib ending v.consumed = (.ok received, []) := by
  obtain ⟨hread, ⟨authority, peer⟩, now, ⟨hb, rfl⟩, hstamp⟩ := h
  refine ⟨authority, now, hb, ?_, fun ending => readRequestEnding_ok hread ending⟩
  rw [← hstamp]
  exact stampRequest_root ho ..

/-- The end of `handle_connection` once its reply is known. -/
def replyHandled (lib : MessageLibrary) (root : MessageDaemonRoot) (delivered : Option Bytes)
    (received : ReceivedMessageRequest) (reply : MessageReply) (outgoing : Option IoError) :
    Handled :=
  match writeReply lib received reply with
  | .error e => ⟨root, delivered, none, .error e⟩
  | .ok bytes =>
    match outgoing with
    | some e => ⟨root, delivered, none, .error (.io e)⟩
    | none => ⟨root, delivered, some bytes, .ok ()⟩

/-- A connection whose reply is due has been a visit up to there. -/
theorem ReplyDue.visit {v : Seen} {received : ReceivedMessageRequest} {reply : MessageReply}
    {h : List Action} (hd : ReplyDue d c v received reply h)
    (ho : root.ownerIdentity = d.ownerIdentity) (outgoing : Option IoError) :
    ∃ visit delivered, VisitOf d c v h visit ∧
      served h = .accepted c :: delivered.toList.map (.forwarded c) ∧
      handle d.lib root visit =
        replyHandled d.lib (counted root h) delivered received reply outgoing := by
  cases hd with
  | @fromRouter image wire answer decided exchanged =>
    obtain ⟨authority, now, hb, hstamp, hread⟩ := decided.stamp ho
    obtain ⟨_, hw, _, frame, hf, hr⟩ := exchanged
    have hf' : (readFrameEnding d.lib .default .unexpectedEof answer).1 = .ok frame := by
      rw [readFrameEnding_plain]
      exact hf
    refine ⟨{ visitOf authority v with
        now := now, router := routerWriting answer, outgoing := outgoing }, some wire,
      ⟨hb, fun peer hp => (Option.some.inj hp).symm, rfl, ?_⟩, rfl, ?_⟩
    · intro answer' hm
      obtain rfl : answer' = answer := by simpa [opened] using hm
      rfl
    · have hcount : counted root (opened c v ++ [.forwarded c wire, .answered c answer]) =
          root.countForward := rfl
      cases he : writeReply d.lib received reply with
      | error e =>
        simp only [handle, visitOf, hread, forwardEnding, hstamp, submitEnding, routerWriting, hw,
          hf', hr, hcount, replyHandled, he]
      | ok bytes =>
        cases outgoing <;>
          simp only [handle, visitOf, hread, forwardEnding, hstamp, submitEnding, routerWriting,
            hw, hf', hr, hcount, replyHandled, he]
  | fromRoot decided =>
    obtain ⟨authority, now, hb, hstamp, hread⟩ := decided.stamp ho
    refine ⟨{ visitOf authority v with now := now, outgoing := outgoing }, none,
      ⟨hb, fun peer hp => (Option.some.inj hp).symm, rfl, by simp [opened]⟩, rfl, ?_⟩
    have hcount : counted root (opened c v) = root := rfl
    cases he : writeReply d.lib received reply with
    | error e => simp only [handle, visitOf, hread, forwardEnding, hstamp, hcount, replyHandled, he]
    | ok bytes =>
      cases outgoing <;>
        simp only [handle, visitOf, hread, forwardEnding, hstamp, hcount, replyHandled, he]

/-- The visit does not depend on what has been written of its reply. -/
theorem VisitOf.replied {v : Seen} {h : List Action} {visit : FaultyVisit}
    (hv : VisitOf d c v h visit) (written wire : Bytes) :
    VisitOf d c { v with sent := written } (h ++ [.replied c wire]) visit :=
  ⟨hv.authority, hv.credentials, hv.incoming,
    fun answer hm => hv.answered answer (by simpa using hm)⟩

/-- The reply is encoded and handed to the client, or ends the visit. -/
theorem serial_startReply {received : ReceivedMessageRequest} {reply : MessageReply}
    {root' : MessageDaemonRoot} (hs : Serial d log s visits past root) (hi : Inv d log s)
    (hcurrent : s.phase.current = some c) (ho : ∀ a ∈ out, a.conn = c)
    (hd : ReplyDue d c (s.seen c) received reply (history c log ++ out))
    (hroot : root' = counted root (history c (log ++ out))) :
    ∃ visits', Serialised d (log ++ out)
      (({ s with root := root' } : Ingress).startReply d c received reply) visits' := by
  have hself : history c log ++ out = history c (log ++ out) := by
    rw [history_append, history_self ho]
  rw [hself] at hd
  unfold Ingress.startReply
  split
  · next e he =>
    obtain ⟨visit, delivered, hv, hserved, hh⟩ := hd.visit (hs.owner hi) none
    have hh' : handle d.lib root visit =
        ⟨counted root (history c (log ++ out)), delivered, none, .error e⟩ := by
      rw [hh, replyHandled, he]
    refine ⟨_, hs.fail hcurrent root' ho hv (congrArg Handled.result hh') ?_⟩
    rw [hh', hserved]
    simp [trace]
  · exact ⟨visits, .running rfl (hs.serve hcurrent rfl rfl (fun _ _ => rfl) ho hroot)⟩

theorem serial_stepScan {k : ℕ} (hs : Serial d log s visits past root) (hi : Inv d log s)
    (hp : s.phase = .scanning k) :
    Serialised d (log ++ (stepScan d s k).2) (stepScan d s k).1 visits := by
  have hcurrent : s.phase.current = none := by rw [hp]; rfl
  unfold stepScan
  split
  · rw [List.append_nil]
    exact .running rfl (hs.move rfl rfl rfl hcurrent.symm)
  · next authority ha =>
    split
    · rw [List.append_nil]
      exact .running rfl (hs.move rfl rfl rfl hcurrent.symm)
    · next c hw =>
      obtain ⟨hc, hq, hl⟩ := waiting_spec hw
      have hne : ∀ p ∈ visits, p.1 ≠ c := by
        rintro p hp' rfl
        have hidle := (hs.idle p hp').1
        rw [show (s.seen p.1).queued = true from hq] at hidle
        cases hidle
      have ho : ∀ a ∈ [Action.accepted c], a.conn = c := by simp [Action.conn]
      have hh : history c (log ++ [Action.accepted c]) = opened c (s.seen c) := by
        rw [history_append, history_self ho, (hi.queued c hq).1]
        rfl
      have hother : ∀ c', c' ≠ c → ∀ (t : Ingress) conn,
          (t.setConnection c conn).seen c' = t.seen c' := by
        intro c' hc' t conn
        rw [seen_setConnection, Function.update_of_ne hc']
      refine .running rfl ⟨fun p hp' => ?_, fun p hp' => ?_, hs.settled, ?_, ?_⟩
      · rw [hother _ (hne p hp'), history_append, history_other ho (hne p hp'), List.append_nil]
        exact hs.visited p hp'
      · rw [hother _ (hne p hp')]
        refine ⟨(hs.idle p hp').1, (hs.idle p hp').2.1, fun hcur => hne p hp' ?_⟩
        exact (Option.some.inj hcur).symm
      · have hlog := hs.logged
        rw [history_nil hcurrent] at hlog
        have hnil : served [] = [] := rfl
        rw [served_append, hlog, hnil, List.append_nil]
        dsimp only [Ingress.setConnection, MainPhase.history, MainPhase.current]
        rw [hh]
        rfl
      · have hroot := hs.forwards
        rw [history_nil hcurrent] at hroot
        dsimp only [Ingress.setConnection, MainPhase.history, MainPhase.current]
        rw [hh]
        exact hroot

/-- A visit that goes wrong before a reply is due has delivered its submission or nothing. -/
theorem Serial.abandon (hs : Serial d log s visits past root) (hcurrent : s.phase.current = some c)
    {e : Error} {delivered : Option Bytes} {visit : FaultyVisit}
    (hh : history c log = opened c (s.seen c) ++ delivered.toList.map (.forwarded c))
    (hb : d.bindings[(s.seen c).listener]? = some visit.authority)
    (hc : ∀ peer, visit.credentials = some peer → peer = (s.seen c).peer)
    (hin : visit.incoming = (s.seen c).consumed)
    (hhandled : handle d.lib root visit = ⟨root, delivered, none, .error e⟩) :
    ∃ visits', Serialised d (log ++ []) (s.exit (.error e)) visits' := by
  refine ⟨_, hs.fail hcurrent s.root (List.forall_mem_nil _) ⟨hb, hc, hin, ?_⟩
    (congrArg Handled.result hhandled) ?_⟩
  · rw [List.append_nil, hh]
    simp [opened]
  · rw [hhandled, List.append_nil, hh]
    cases delivered <;> rfl

/-- A read of the request ends, or fails as the same read of a stream that has ended. -/
theorem serial_stepReadRequest {ingress : MessageIngressContext} {got : Bytes} {event : ReadEvent}
    (hs : Serial d log s visits past root) (hi : Inv d log s)
    (hp : s.phase = .reading c ingress got)
    (h : stepReadRequest d s c ingress got event = some t) :
    ∃ visits', Serialised d (log ++ []) t visits' := by
  have hcurrent : s.phase.current = some c := by rw [hp]; rfl
  have hserves := hi.serves
  rw [hp] at hserves
  obtain ⟨hh, hcons, _, ⟨hb, hpeer⟩, hw⟩ := hserves
  have hfail : ∀ ending e, (readRequestEnding d.lib ending got).1 = .error e →
      ∃ visits', Serialised d (log ++ []) (s.exit (.error e)) visits' := by
    intro ending e he
    have hhandled : handle d.lib root { visitOf ingress.authority (s.seen c) with
        reading := ending } = ⟨root, none, none, .error e⟩ := by
      simp only [handle, visitOf, hcons, he]
    exact hs.abandon hcurrent (hh.trans (List.append_nil _).symm) hb
      (fun peer hpeer => (Option.some.inj hpeer).symm) rfl hhandled
  unfold stepReadRequest at h
  split at h
  · cases h
  · next stream got' hr =>
    obtain rfl := Option.some.inj h
    exact ⟨visits, hs.stay hcurrent rfl rfl
      (fun c' hc => by rw [setStream_seen]; exact Function.update_of_ne hc ..) rfl⟩
  · next fault hr =>
    obtain rfl := Option.some.inj h
    obtain ⟨ending, he⟩ := readFrameEnding_done hw hr
    exact hfail ending _ (readRequestEnding_error he)
  · next frame hr =>
    split at h
    · next e ha =>
      obtain rfl := Option.some.inj h
      obtain ⟨ending, he⟩ := readFrameEnding_done hw hr
      exact hfail ending _ ((readRequestEnding_frame he).trans ha)
    · next received ha =>
      obtain rfl := Option.some.inj h
      exact ⟨visits, hs.stay hcurrent rfl rfl (fun _ _ => rfl) rfl⟩

theorem serial_askFailed {ingress : MessageIngressContext} {received : ReceivedMessageRequest}
    (hs : Serial d log s visits past root) (hi : Inv d log s)
    (hp : s.phase = .forwarding c ingress received) (detail : String) :
    ∃ visits', Serialised d (log ++ [])
      (s.exit (.error (.actor "forward message request" detail))) visits' := by
  have hcurrent : s.phase.current = some c := by rw [hp]; rfl
  have hserves := hi.serves
  rw [hp] at hserves
  obtain ⟨hh, _, ⟨hb, hpeer⟩, hread⟩ := hserves
  have hhandled : handle d.lib root { visitOf ingress.authority (s.seen c) with
      asking := some detail } =
        ⟨root, none, none, .error (.actor "forward message request" detail)⟩ := by
    simp only [handle, visitOf, readRequestEnding_ok hread]
  exact hs.abandon hcurrent (hh.trans (List.append_nil _).symm) hb
    (fun peer hpeer => (Option.some.inj hpeer).symm) rfl hhandled

theorem serial_stepStamp {ingress : MessageIngressContext} {received : ReceivedMessageRequest}
    (hs : Serial d log s visits past root) (hi : Inv d log s)
    (hp : s.phase = .forwarding c ingress received) (now : ℤ) :
    ∃ visits', Serialised d (log ++ []) (stepStamp d s c ingress received now) visits' := by
  have hcurrent : s.phase.current = some c := by rw [hp]; rfl
  have hserves := hi.serves
  rw [hp] at hserves
  obtain ⟨hh, _, ⟨hb, hpeer⟩, hread⟩ := hserves
  dsimp only at hh
  have hroot : s.root = counted root (history c log) := by
    rw [← history_current hcurrent]
    exact hs.forwards
  unfold stepStamp
  split
  · next e hstamp =>
    rw [stampRequest_root (hi.owner.trans (hs.owner hi).symm)] at hstamp
    have hhandled : handle d.lib root { visitOf ingress.authority (s.seen c) with now := now } =
        ⟨root, none, none, .error e⟩ := by
      simp only [handle, visitOf, readRequestEnding_ok hread, forwardEnding, ← hpeer, hstamp]
    exact hs.abandon hcurrent (hh.trans (List.append_nil _).symm) hb
      (fun peer hpeer => (Option.some.inj hpeer).symm) rfl hhandled
  · exact ⟨visits, hs.stay hcurrent rfl rfl (fun _ _ => rfl) rfl⟩
  · next reply hstamp =>
    have howner : s.root.ownerIdentity = (MessageDaemonRoot.new d.ownerIdentity).ownerIdentity :=
      hi.owner
    rw [stampRequest_root howner] at hstamp
    have hd : ReplyDue d c (s.seen c) received reply (history c log ++ []) := by
      rw [List.append_nil, hh]
      exact .fromRoot ⟨hread, ingress, now, ⟨hb, hpeer⟩, hstamp⟩
    refine serial_startReply hs hi hcurrent (List.forall_mem_nil _) hd ?_
    rw [List.append_nil]
    exact hroot

theorem serial_stepConnect {received : ReceivedMessageRequest} {image : MessageRequest}
    (hs : Serial d log s visits past root) (hi : Inv d log s)
    (hp : s.phase = .connecting c received image) (h : stepConnect d s c received image = some t) :
    ∃ visits', Serialised d (log ++ []) t visits' := by
  have hcurrent : s.phase.current = some c := by rw [hp]; rfl
  have hserves := hi.serves
  rw [hp] at hserves
  obtain ⟨hh, _, hd⟩ := hserves
  obtain ⟨authority, now, hb, hstamp, hread⟩ := hd.stamp (hs.owner hi)
  unfold stepConnect at h
  split at h
  · next e hl =>
    obtain rfl := Option.some.inj h
    have hhandled : handle d.lib root { visitOf authority (s.seen c) with
        now := now, router := ⟨some e, none, fun _ => []⟩ } =
          ⟨root, none, none, .error (.io e)⟩ := by
      simp only [handle, visitOf, hread, forwardEnding, hstamp, submitEnding]
    exact hs.abandon hcurrent (hh.trans (List.append_nil _).symm) hb
      (fun peer hpeer => (Option.some.inj hpeer).symm) rfl hhandled
  · cases h
  · split at h
    · next e hw =>
      obtain rfl := Option.some.inj h
      have hhandled : handle d.lib root { visitOf authority (s.seen c) with now := now } =
          ⟨root, none, none, .error e⟩ := by
        simp only [handle, visitOf, hread, forwardEnding, hstamp, submitEnding, routerWriting, hw]
      exact hs.abandon hcurrent (hh.trans (List.append_nil _).symm) hb
        (fun peer hpeer => (Option.some.inj hpeer).symm) rfl hhandled
    · obtain rfl := Option.some.inj h
      exact ⟨visits, hs.stay hcurrent rfl rfl (fun _ _ => rfl) rfl⟩

theorem serial_stepSubmit {received : ReceivedMessageRequest} {rest : Bytes} {event : WriteEvent}
    (hs : Serial d log s visits past root) (hi : Inv d log s)
    (hp : s.phase = .submitting c received rest)
    (h : stepSubmit d s c received rest event = some (t, out)) :
    ∃ visits', Serialised d (log ++ out) t visits' := by
  have hcurrent : s.phase.current = some c := by rw [hp]; rfl
  have hserves := hi.serves
  rw [hp] at hserves
  obtain ⟨hh, _, image, wire, hd, hw, _⟩ := hserves
  dsimp only at hh
  unfold stepSubmit at h
  split at h
  · cases h
  · next e he =>
    obtain ⟨rfl, rfl⟩ := Prod.mk.inj (Option.some.inj h)
    obtain ⟨authority, now, hb, hstamp, hread⟩ := hd.stamp (hs.owner hi)
    have hhandled : handle d.lib root { visitOf authority (s.seen c) with
        now := now, router := ⟨none, some e, fun _ => []⟩ } =
          ⟨root, none, none, .error (.io e)⟩ := by
      simp only [handle, visitOf, hread, forwardEnding, hstamp, submitEnding, hw]
    exact hs.abandon hcurrent (hh.trans (List.append_nil _).symm) hb
      (fun peer hpeer => (Option.some.inj hpeer).symm) rfl hhandled
  · next stream he =>
    obtain ⟨rfl, rfl⟩ := Prod.mk.inj (Option.some.inj h)
    have ho : ∀ a ∈ [Action.forwarded c stream.sent], a.conn = c := by simp [Action.conn]
    refine ⟨visits, .running rfl (hs.serve hcurrent rfl rfl (fun _ _ => rfl) ho ?_)⟩
    have hroot := hs.forwards
    rw [history_current hcurrent, hh] at hroot
    rw [history_append, history_self ho, hh]
    exact hroot
  · obtain ⟨rfl, rfl⟩ := Prod.mk.inj (Option.some.inj h)
    exact ⟨visits, hs.stay hcurrent rfl rfl (fun _ _ => rfl) rfl⟩

theorem serial_stepAwait {received : ReceivedMessageRequest} {got : Bytes} {event : ReadEvent}
    (hs : Serial d log s visits past root) (hi : Inv d log s)
    (hp : s.phase = .awaiting c received got)
    (h : stepAwait d s c received got event = some (t, out)) :
    ∃ visits', Serialised d (log ++ out) t visits' := by
  have hcurrent : s.phase.current = some c := by rw [hp]; rfl
  have hserves := hi.serves
  rw [hp] at hserves
  obtain ⟨_, hwithin, _, image, wire, hh, hd, hw⟩ := hserves
  dsimp only at hh
  obtain ⟨authority, now, hb, hstamp, hread⟩ := hd.stamp (hs.owner hi)
  have hfail : ∀ ending e, (submitEnding d.lib ending (routerWriting got) image) =
      ⟨some wire, .error e⟩ → ∃ visits', Serialised d (log ++ []) (s.exit (.error e)) visits' := by
    intro ending e he
    have hhandled : handle d.lib root { visitOf authority (s.seen c) with
        now := now, router := routerWriting got, answering := ending } =
          ⟨root, some wire, none, .error e⟩ := by
      simp only [handle, visitOf, hread, forwardEnding, hstamp, he]
    have hh' : history c log = opened c (s.seen c) ++ (some wire).toList.map (.forwarded c) := hh
    exact hs.abandon hcurrent hh' hb (fun peer hpeer => (Option.some.inj hpeer).symm) rfl hhandled
  unfold stepAwait at h
  split at h
  · cases h
  · obtain ⟨rfl, rfl⟩ := Prod.mk.inj (Option.some.inj h)
    exact ⟨visits, hs.stay hcurrent rfl rfl (fun _ _ => rfl) rfl⟩
  · next fault hr =>
    obtain ⟨rfl, rfl⟩ := Prod.mk.inj (Option.some.inj h)
    obtain ⟨ending, he⟩ := readFrameEnding_done hwithin hr
    refine hfail ending _ ?_
    simp only [submitEnding, routerWriting, hw, he]
    rfl
  · next frame hr =>
    obtain ⟨ending, he⟩ := readFrameEnding_done hwithin hr
    have hf : (readFrameEnding d.lib .default ending got).1 = .ok frame := he
    split at h
    · next e ha =>
      obtain ⟨rfl, rfl⟩ := Prod.mk.inj (Option.some.inj h)
      refine hfail ending _ ?_
      simp only [submitEnding, routerWriting, hw, hf, ha]
    · next reply ha =>
      obtain ⟨rfl, rfl⟩ := Prod.mk.inj (Option.some.inj h)
      have ho : ∀ a ∈ [Action.answered c got], a.conn = c := by simp [Action.conn]
      have hanswer : Answered d.lib (routerWriting got) image wire reply :=
        ⟨rfl, hw, rfl, frame, congrArg Prod.fst (readFrame_of_readStep hwithin hr), ha⟩
      have hhistory : history c log ++ [Action.answered c got] =
          opened c (s.seen c) ++ [Action.forwarded c wire, Action.answered c got] := by
        rw [hh, List.append_assoc]
        rfl
      refine serial_startReply hs hi hcurrent ho ?_ ?_
      · rw [hhistory]
        exact .fromRouter hd hanswer
      · have hroot := hs.forwards
        rw [history_current hcurrent, hh] at hroot
        rw [history_append, history_self ho, hhistory, hroot]
        rfl

theorem serial_stepReply {rest : Bytes} {event : WriteEvent}
    (hs : Serial d log s visits past root) (hi : Inv d log s) (hp : s.phase = .replying c rest)
    (h : stepReply d s c rest event = some (t, out)) :
    ∃ visits', Serialised d (log ++ out) t visits' := by
  have hcurrent : s.phase.current = some c := by rw [hp]; rfl
  have hserves := hi.serves
  rw [hp] at hserves
  obtain ⟨_, received, reply, hd, he⟩ := hserves
  dsimp only at hd
  have hroot : s.root = counted root (history c log) := by
    rw [← history_current hcurrent]
    exact hs.forwards
  obtain ⟨more, hmore⟩ := hd.listed
  unfold stepReply at h
  split at h
  · cases h
  · next e hw =>
    obtain ⟨rfl, rfl⟩ := Prod.mk.inj (Option.some.inj h)
    obtain ⟨visit, delivered, hv, hserved, hh⟩ := hd.visit (hs.owner hi) (some e)
    simp only [replyHandled, he] at hh
    refine ⟨_, hs.fail hcurrent s.root (List.forall_mem_nil _) ?_
      (congrArg Handled.result hh) ?_⟩
    · rw [List.append_nil]
      exact hv
    · rw [hh, List.append_nil, hserved]
      simp [trace]
  · next stream hw =>
    obtain ⟨rfl, rfl⟩ := Prod.mk.inj (Option.some.inj h)
    obtain ⟨hsw, hsc⟩ := writeStep_ok hw
    rw [List.append_nil] at hsw
    obtain ⟨visit, delivered, hv, hserved, hh⟩ := hd.visit (hs.owner hi) none
    simp only [replyHandled, he, ← hroot] at hh
    have ho : ∀ a ∈ [Action.replied c stream.sent], a.conn = c := by simp [Action.conn]
    obtain ⟨hb, hq⟩ := hi.serving hmore
    have hc : c < s.opened := by
      by_contra hn
      exact hb (hi.unopened c (not_lt.mp hn))
    have hseen : (({ s with phase := .polling } : Ingress).setStream c stream).seen =
        Function.update s.seen c { s.seen c with sent := stream.sent } := setStream_sent hsc
    have hself : (({ s with phase := .polling } : Ingress).setStream c stream).seen c =
        { s.seen c with sent := stream.sent } := by
      rw [hseen, Function.update_self]
    have hh' : history c (log ++ [Action.replied c stream.sent]) =
        history c log ++ [Action.replied c stream.sent] := by
      rw [history_append, history_self ho]
    obtain ⟨past', hfinish⟩ := hs.finish hcurrent
      (show (({ s with phase := .polling } : Ingress).setStream c stream).phase.current = none
        from rfl) rfl (fun c' hc' => by rw [hseen]; exact Function.update_of_ne hc' ..) ho hc
      (by rw [hself]; exact hq) (by rw [hself, hh']; exact hv.replied _ _) hh
      (by rw [hh', served_append, hserved, hh, hsw]; rfl)
    exact ⟨_, .running rfl hfinish⟩
  · obtain ⟨rfl, rfl⟩ := Prod.mk.inj (Option.some.inj h)
    exact ⟨visits, hs.stay hcurrent rfl rfl
      (fun c' hc => by rw [setStream_seen]; exact Function.update_of_ne hc ..) rfl⟩

theorem serial_credentials {authority : MessageIngressAuthority}
    (hs : Serial d log s visits past root) (hi : Inv d log s)
    (hp : s.phase = .opening c authority) :
    ∃ visits', Serialised d (log ++ []) (s.exit (.error .peerCredentials)) visits' := by
  have hcurrent : s.phase.current = some c := by rw [hp]; rfl
  have hserves := hi.serves
  rw [hp] at hserves
  obtain ⟨hh, _, _, hb⟩ := hserves
  have hhandled : handle d.lib root { visitOf authority (s.seen c) with credentials := none } =
      ⟨root, none, none, .error .peerCredentials⟩ := rfl
  exact hs.abandon hcurrent (hh.trans (List.append_nil _).symm) hb (by simp) rfl hhandled

/-- Between two connections the run can end without an error of a visit. -/
theorem Serial.leave (hs : Serial d log s visits past root) (hcurrent : s.phase.current = none)
    {result : Result Unit}
    (h : transcript d.lib (.new d.ownerIdentity) visits = (served log, .ok s.root) →
      Returned d log s.root visits result) :
    Serialised d (log ++ []) (s.exit result) visits := by
  rw [List.append_nil]
  exact .returned rfl hs.visited (h (hs.between hcurrent))

theorem serial_stepMain {event : MainEvent} (hs : Serial d log s visits past root)
    (hi : Inv d log s) (h : stepMain d s event = some (t, out)) :
    ∃ visits', Serialised d (log ++ out) t visits' := by
  unfold stepMain at h
  split at h
  · next stop hp =>
    obtain ⟨rfl, rfl⟩ := Prod.mk.inj (Option.some.inj h)
    have hcurrent : s.phase.current = none := by rw [hp]; rfl
    rw [List.append_nil]
    cases stop <;> exact ⟨visits, .running rfl (hs.move rfl rfl rfl hcurrent.symm)⟩
  · next k hp =>
    obtain ⟨rfl, rfl⟩ := Prod.mk.inj (Option.some.inj h)
    exact ⟨visits, serial_stepScan hs hi hp⟩
  · next k e hp =>
    split_ifs at h with he
    obtain ⟨rfl, rfl⟩ := Prod.mk.inj (Option.some.inj h)
    have hcurrent : s.phase.current = none := by rw [hp]; rfl
    exact ⟨visits, hs.leave hcurrent (.acceptFailed he.2)⟩
  · next hp =>
    obtain ⟨rfl, rfl⟩ := Prod.mk.inj (Option.some.inj h)
    have hcurrent : s.phase.current = none := by rw [hp]; rfl
    rw [List.append_nil]
    exact ⟨visits, .running rfl (hs.move rfl rfl rfl hcurrent.symm)⟩
  · next c authority available hp =>
    split_ifs at h
    · obtain ⟨rfl, rfl⟩ := Prod.mk.inj (Option.some.inj h)
      have hcurrent : s.phase.current = some c := by rw [hp]; rfl
      exact ⟨visits, hs.stay hcurrent rfl rfl (fun _ _ => rfl) rfl⟩
    · obtain ⟨rfl, rfl⟩ := Prod.mk.inj (Option.some.inj h)
      exact serial_credentials hs hi hp
  · next c ingress got event hp =>
    obtain ⟨u, hu, he⟩ := Option.map_eq_some_iff.mp h
    obtain ⟨rfl, rfl⟩ := Prod.mk.inj he
    exact serial_stepReadRequest hs hi hp hu
  · next c ingress received now hp =>
    obtain ⟨rfl, rfl⟩ := Prod.mk.inj (Option.some.inj h)
    exact serial_stepStamp hs hi hp now
  · next detail hp =>
    obtain ⟨rfl, rfl⟩ := Prod.mk.inj (Option.some.inj h)
    exact serial_askFailed hs hi hp detail
  · next c received image hp =>
    obtain ⟨u, hu, he⟩ := Option.map_eq_some_iff.mp h
    obtain ⟨rfl, rfl⟩ := Prod.mk.inj he
    exact serial_stepConnect hs hi hp hu
  · next c received rest event hp => exact serial_stepSubmit hs hi hp h
  · next c received got event hp => exact serial_stepAwait hs hi hp h
  · next c rest event hp => exact serial_stepReply hs hi hp h
  · next outcome hp =>
    obtain ⟨rfl, rfl⟩ := Prod.mk.inj (Option.some.inj h)
    have hcurrent : s.phase.current = none := by rw [hp]; rfl
    rw [stopRoot_eq]
    exact ⟨visits, hs.leave hcurrent (.stopped outcome)⟩
  · cases h

/-- A client's step is not the daemon's: the visits stay what they were. -/
theorem serial_stepClient {event : ClientEvent} (hs : Serial d log s visits past root)
    (hi : Inv d log s) (h : stepClient d s event = some (t, out)) :
    Serial d (log ++ out) t visits past root := by
  rcases stepClient_cases h with ⟨listener, peer, _, rfl, rfl⟩ | ⟨c, stream, hc, hsent, rfl, rfl⟩
  · have ho : ∀ a ∈ [Action.connected s.opened listener peer], a.conn = s.opened := by
      simp [Action.conn]
    have hother : ∀ c, c ≠ s.opened →
        history c (log ++ [Action.connected s.opened listener peer]) = history c log := by
      intro c hc
      rw [history_append, history_other ho hc, List.append_nil]
    have hphase : s.phase.history (log ++ [Action.connected s.opened listener peer]) =
        s.phase.history log := by
      unfold MainPhase.history
      split
      · rfl
      · next c hcurrent =>
        refine hother c ?_
        rintro rfl
        exact hi.serves.known hcurrent (hi.unopened _ le_rfl)
    refine ⟨fun p hp => ?_, fun p hp => ?_, hs.settled, ?_, ?_⟩
    · have hne := (hs.idle p hp).2.1.ne
      rw [seen_setConnection, Function.update_of_ne hne, hother _ hne]
      exact hs.visited p hp
    · have hne := (hs.idle p hp).2.1.ne
      rw [seen_setConnection, Function.update_of_ne hne]
      exact ⟨(hs.idle p hp).1, Nat.lt_succ_of_lt (hs.idle p hp).2.1, (hs.idle p hp).2.2⟩
    · have hnew : served [Action.connected s.opened listener peer] = [] := rfl
      rw [served_append, hnew, List.append_nil]
      dsimp only [Ingress.setConnection]
      rw [hphase]
      exact hs.logged
    · dsimp only [Ingress.setConnection]
      rw [hphase]
      exact hs.forwards
  · rw [List.append_nil]
    exact hs.move (seen_setStream s c hc hsent) rfl rfl rfl

theorem serial_step {event : Event} (h : Serialised d log s visits) (hi : Inv d log s)
    (hs : step d s event = some (t, out)) : ∃ visits', Serialised d (log ++ out) t visits' := by
  unfold step at hs
  split_ifs at hs with hx
  cases h with
  | returned exited _ _ => simp [exited, MainPhase.isExited] at hx
  | running exited serial =>
    cases event with
    | main event => exact serial_stepMain serial hi hs
    | client event =>
      have hphase : t.phase = s.phase := by
        rcases stepClient_cases hs with ⟨_, _, _, rfl, _⟩ | ⟨_, _, _, _, rfl, _⟩ <;> rfl
      exact ⟨visits, .running (hphase ▸ exited) (serial_stepClient serial hi hs)⟩
    | router event =>
      obtain ⟨rfl, rfl⟩ := Prod.mk.inj (Option.some.inj hs)
      rw [List.append_nil]
      cases event <;> exact ⟨visits, .running exited (serial.move rfl rfl rfl rfl)⟩

theorem serial_initial (d : Deployment) (routerListener : RouterListener) :
    Serialised d [] (initial d routerListener) [] :=
  .running rfl ⟨List.forall_mem_nil _, List.forall_mem_nil _, rfl, rfl, rfl⟩

theorem serialised_run {listen : RouterListener} {events : List Event}
    (hr : (machine d).run (initial d listen) events = some (s, log)) :
    ∃ visits, Serialised d log s visits := by
  have h := @Machine.run_invariant _ _ _ (machine d)
    (fun log s => Inv d log s ∧ ∃ visits, Serialised d log s visits)
    (fun hi hs => ⟨inv_step hi.1 hs, serial_step hi.2.choose_spec hi.1 hs⟩)
    _ _ _ _ ⟨inv_initial listen, [], serial_initial d listen⟩ hr
  exact h.2

/-- The connection that an entry of the history accepts. -/
def Action.accepts : Action → Option ConnId
  | .accepted c => some c
  | _ => none

theorem accepts_served (log : List Action) :
    (served log).filterMap Action.accepts = log.filterMap Action.accepts := by
  rw [served, List.filterMap_filter]
  congr
  funext a
  cases a <;> rfl

theorem accepts_trace (c : ConnId) (handled : Handled) :
    (trace c handled).filterMap Action.accepts = [c] := by
  rcases handled with ⟨_, _ | delivered, _ | replied, _⟩ <;> rfl

/-- The visits of a transcript without a failure are those of the connections it accepts. -/
theorem transcript_accepts {lib : MessageLibrary} {start : MessageDaemonRoot}
    (h : transcript lib start visits = (past, .ok root)) :
    past.filterMap Action.accepts = visits.map Prod.fst := by
  induction visits generalizing start past with
  | nil =>
    obtain ⟨rfl, _⟩ := Prod.mk.inj h
    rfl
  | cons first visits ih =>
    obtain ⟨_, later, rfl, hlater⟩ := transcript_cons_ok h
    rw [List.filterMap_append, accepts_trace, ih hlater]
    rfl

/-- The connection that is served has been accepted once. -/
theorem accepts_current (hi : Inv d log s) :
    (s.phase.history log).filterMap Action.accepts = s.phase.current.toList := by
  have hserves := hi.serves
  cases hp : s.phase with
  | polling | scanning | sleeping | stopping | exited => rfl
  | opening c | reading c | forwarding c | connecting c | submitting c =>
    rw [hp] at hserves
    have hh := hserves.1
    simp only [MainPhase.history, MainPhase.current, hh]
    rfl
  | awaiting c received got =>
    rw [hp] at hserves
    obtain ⟨_, _, _, image, wire, hh, _⟩ := hserves
    simp only [MainPhase.history, MainPhase.current, hh]
    rfl
  | replying c rest =>
    rw [hp] at hserves
    obtain ⟨_, received, reply, hd, _⟩ := hserves
    dsimp only [MainPhase.history, MainPhase.current] at hd ⊢
    generalize history c log = entries at hd ⊢
    cases hd <;> rfl

/-- Every run of the accept loop, whatever its peers do in between, is the serial run of
`handle_connection` over the connections it has accepted, in that order, as far as it has come
with the last of them; and what `run` returns is what that serial run ends with. -/
theorem run_serialises {listen : RouterListener} {events : List Event}
    (hr : (machine d).run (initial d listen) events = some (s, log)) :
    ∃ visits, Serialised d log s visits ∧
      log.filterMap Action.accepts = visits.map Prod.fst ++ s.phase.current.toList := by
  obtain ⟨visits, h⟩ := serialised_run hr
  refine ⟨visits, h, ?_⟩
  rw [← accepts_served]
  cases h with
  | running exited serial =>
    rw [serial.logged, List.filterMap_append, transcript_accepts serial.settled, accepts_served,
      accepts_current (inv_run hr)]
  | returned exited visited returned =>
    rw [exited]
    cases returned with
    | stopped outcome past => exact (transcript_accepts past).trans (List.append_nil _).symm
    | acceptFailed failed past => exact (transcript_accepts past).trans (List.append_nil _).symm
    | connectionFailed last settled failed logged =>
      rw [logged, last, List.filterMap_append, transcript_accepts settled, accepts_trace,
        List.map_append]
      exact (List.append_nil _).symm

theorem submission_serialises : ∃ s visits,
    (machine ownerDeployment).run (initial ownerDeployment .ready) submissionEvents =
      some (s, submissionLog) ∧ Serialised ownerDeployment submissionLog s visits ∧
    submissionLog.filterMap Action.accepts = visits.map Prod.fst ++ s.phase.current.toList := by
  obtain ⟨s, hr⟩ := submission_run
  obtain ⟨visits, h, ha⟩ := run_serialises hr
  exact ⟨s, visits, hr, h, ha⟩

end PersonaMessage.IngressMachine
