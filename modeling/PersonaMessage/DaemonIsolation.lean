import PersonaMessage.DaemonConnection
import PersonaMessage.TableLibrary

/-! What one connection of the accept loop can do to the others. `run` passes an error of
`handle_connection` on to its caller, so the loop survives exactly the runs in which no
connection fails. -/
namespace PersonaMessage.DaemonIsolation
open ByteStream SignalFrames RouterCodec SignalRouterFrameCodec DaemonStamping DaemonConnection
  TableLibrary

/-- A connection in which nothing fails, said of its bytes, its peers and the clock. -/
inductive Faultless (lib : MessageLibrary) (root : MessageDaemonRoot) (visit : Visit) : Prop
  | forwarded {peer : PeerCredentials} {received : ReceivedMessageRequest}
      {image : MessageRequest} {wire bytes : Bytes} {reply : MessageReply}
      (credentials : visit.credentials = some peer)
      (admitted : (readRequest lib visit.incoming).1 = .ok received)
      (stamped : root.stampRequest received.request ⟨visit.authority, peer⟩ visit.now =
        .ok (.forward image))
      (answered : Answered lib visit.router image wire reply)
      (encoded : writeReply lib received reply = .ok bytes)
      (taken : visit.outgoing = none)
  | answeredLocally {peer : PeerCredentials} {received : ReceivedMessageRequest}
      {bytes : Bytes} {reply : MessageReply}
      (credentials : visit.credentials = some peer)
      (admitted : (readRequest lib visit.incoming).1 = .ok received)
      (stamped : root.stampRequest received.request ⟨visit.authority, peer⟩ visit.now =
        .ok (.reply reply))
      (encoded : writeReply lib received reply = .ok bytes)
      (taken : visit.outgoing = none)

variable {lib : MessageLibrary}

/-- Whether a connection fails does not depend on what was served before it. -/
theorem Faultless.root {root other : MessageDaemonRoot} {visit : Visit}
    (h : root.ownerIdentity = other.ownerIdentity) (hf : Faultless lib root visit) :
    Faultless lib other visit := by
  cases hf with
  | forwarded hc ha hs hr he ht =>
    rw [stampRequest_root h] at hs
    exact .forwarded hc ha hs hr he ht
  | answeredLocally hc ha hs he ht =>
    rw [stampRequest_root h] at hs
    exact .answeredLocally hc ha hs he ht

theorem forward_ownerIdentity (lib : MessageLibrary) (root : MessageDaemonRoot)
    (request : MessageRequest) (ingress : MessageIngressContext) (now : ℤ) (router : Peer) :
    (MessageDaemonRoot.forward lib root request ingress now router).root.ownerIdentity =
      root.ownerIdentity := by
  unfold MessageDaemonRoot.forward
  split
  · rfl
  · dsimp only
    split <;> rfl
  · rfl

theorem handleConnection_ownerIdentity (lib : MessageLibrary) (root : MessageDaemonRoot)
    (visit : Visit) :
    (handleConnection lib root visit).root.ownerIdentity = root.ownerIdentity := by
  unfold handleConnection
  split
  · rfl
  · split
    · rfl
    · dsimp only
      split
      · exact forward_ownerIdentity ..
      · split
        · exact forward_ownerIdentity ..
        · split <;> exact forward_ownerIdentity ..

theorem faultless_of_handled {root : MessageDaemonRoot} {visit : Visit}
    (h : (handleConnection lib root visit).result = .ok ()) : Faultless lib root visit := by
  unfold handleConnection at h
  split at h
  · cases h
  · next peer hc =>
    split at h
    · cases h
    · next received ha =>
      dsimp only at h
      split at h
      · cases h
      · next reply hr =>
        split at h
        · cases h
        · next bytes he =>
          split at h
          · cases h
          · next ht =>
            unfold MessageDaemonRoot.forward at hr
            split at hr
            · cases hr
            · next image hs =>
              dsimp only at hr
              split at hr
              · cases hr
              · next answer hq =>
                obtain rfl := Except.ok.inj hr
                obtain ⟨wire, hw⟩ := submitTo_ok_iff.mp hq
                exact .forwarded hc ha hs hw he ht
            · next local_ hs =>
              obtain rfl := Except.ok.inj hr
              exact .answeredLocally hc ha hs he ht

theorem handled_of_faultless {root : MessageDaemonRoot} {visit : Visit}
    (h : Faultless lib root visit) : (handleConnection lib root visit).result = .ok () := by
  cases h with
  | forwarded hc ha hs hr he ht =>
    simp only [handleConnection, hc, ha, MessageDaemonRoot.forward, hs,
      SignalRouterClient.submit, hr.submitTo, he, ht]
  | answeredLocally hc ha hs he ht =>
    simp only [handleConnection, hc, ha, MessageDaemonRoot.forward, hs, he, ht]

theorem handled_iff {root : MessageDaemonRoot} {visit : Visit} :
    (handleConnection lib root visit).result = .ok () ↔ Faultless lib root visit :=
  ⟨faultless_of_handled, handled_of_faultless⟩

/-- The loop is still running after its connections exactly when none of them failed. -/
theorem serve_running_iff (root : MessageDaemonRoot) (visits : List Visit) :
    (∃ after, (serve lib root visits).2 = .ok after) ↔
      ∀ visit ∈ visits, Faultless lib root visit := by
  induction visits generalizing root with
  | nil => simp [serve]
  | cons visit visits ih =>
    have ho := handleConnection_ownerIdentity lib root visit
    cases hr : (handleConnection lib root visit).result with
    | error e =>
      have hn : ¬ Faultless lib root visit := by
        intro hf
        rw [handled_of_faultless hf] at hr
        cases hr
      simp [serve, hr, hn]
    | ok u =>
      have hf := faultless_of_handled hr
      have hall : (∀ v ∈ visits, Faultless lib (handleConnection lib root visit).root v) ↔
          ∀ v ∈ visits, Faultless lib root v :=
        ⟨fun h v hv => (h v hv).root ho, fun h v hv => (h v hv).root ho.symm⟩
      simp only [serve, hr, ih, hall, List.forall_mem_cons, hf, true_and]

/-- The first failing connection ends the run: none of the later ones is served. -/
theorem serve_first_failure {root : MessageDaemonRoot} {before after : List Visit}
    {visit : Visit} (hb : ∀ v ∈ before, Faultless lib root v)
    (hv : ¬ Faultless lib root visit) :
    (serve lib root (before ++ visit :: after)).1.length = before.length+1 ∧
      ∃ e, (serve lib root (before ++ visit :: after)).2 = .error e := by
  induction before generalizing root with
  | nil =>
    cases hr : (handleConnection lib root visit).result with
    | error e => simp [serve, hr]
    | ok u => exact absurd (faultless_of_handled hr) hv
  | cons first before ih =>
    have hr := handled_of_faultless (hb first (by simp))
    have ho := handleConnection_ownerIdentity lib root first
    have hb' : ∀ v ∈ before, Faultless lib (handleConnection lib root first).root v :=
      fun v hv' => (hb v (by simp [hv'])).root ho.symm
    have hrest := ih hb' (fun hf => hv (hf.root ho))
    simpa [serve, hr] using hrest

open Classical in
/-- The run without its failing connections. -/
noncomputable def withoutFailures (lib : MessageLibrary) (root : MessageDaemonRoot)
    (visits : List Visit) : List Visit := visits.filter (fun v => Faultless lib root v)

/-- Isolation of the connections of a run: the loop is not left, and a connection in which
nothing fails is served as in the run without the failing ones. -/
def Isolated (lib : MessageLibrary) (root : MessageDaemonRoot) (visits : List Visit) : Prop :=
  (∃ after, (serve lib root visits).2 = .ok after) ∧
  ∀ before visit after, visits = before ++ visit :: after → Faultless lib root visit →
    ∃ handled alone, (serve lib root visits).1[before.length]? = some handled ∧
      (serve lib root (withoutFailures lib root visits)).1[
        (withoutFailures lib root before).length]? = some alone ∧
      handled.delivered = alone.delivered ∧ handled.replied = alone.replied

theorem serve_length {root : MessageDaemonRoot} {visits : List Visit}
    (h : ∀ visit ∈ visits, Faultless lib root visit) :
    (serve lib root visits).1.length = visits.length := by
  induction visits generalizing root with
  | nil => rfl
  | cons visit visits ih =>
    have hr := handled_of_faultless (h visit (by simp))
    have ho := handleConnection_ownerIdentity lib root visit
    have hall : ∀ v ∈ visits, Faultless lib (handleConnection lib root visit).root v :=
      fun v hv => (h v (by simp [hv])).root ho.symm
    have hi := ih hall
    simpa [serve, hr] using hi

theorem withoutFailures_eq {root : MessageDaemonRoot} {visits : List Visit}
    (h : ∀ visit ∈ visits, Faultless lib root visit) :
    withoutFailures lib root visits = visits := by
  classical
  exact List.filter_eq_self.mpr (fun v hv => by simpa using h v hv)

/-- Connections are isolated from each other exactly in the runs without a failure. -/
theorem isolated_iff_faultless (lib : MessageLibrary) (root : MessageDaemonRoot)
    (visits : List Visit) :
    Isolated lib root visits ↔ ∀ visit ∈ visits, Faultless lib root visit := by
  constructor
  · intro h
    exact (serve_running_iff root visits).mp h.1
  · intro h
    refine ⟨(serve_running_iff root visits).mpr h, ?_⟩
    rintro before visit after rfl hf
    have hb : ∀ v ∈ before, Faultless lib root v := fun v hv => h v (by simp [hv])
    rw [withoutFailures_eq h, withoutFailures_eq hb]
    have hl : before.length < (serve lib root (before ++ visit :: after)).1.length := by
      rw [serve_length h, List.length_append, List.length_cons]
      omega
    exact ⟨_, _, List.getElem?_eq_getElem hl, List.getElem?_eq_getElem hl, rfl, rfl⟩

def inboxRequest : MessageRequest := .inboxQuery ⟨⟨"designer"⟩⟩

/-- The two frames of an inbox conversation. -/
def inboxFrames : List MessageFrame :=
  [⟨.request connectorExchange ⟨.single ⟨verbOf inboxRequest, inboxRequest⟩⟩⟩,
    replyFrame connectorExchange (verbOf inboxRequest) (.inboxListing ⟨[]⟩)]

/-- A client that asks for its inbox; the router answers with an empty listing. -/
def inboxVisit : Visit :=
  ⟨.externalPeer, some ⟨⟨1000⟩⟩, frameBytes 0, 0, ⟨none, none, fun _ => frameBytes 1⟩, none⟩

/-- A client that connects and closes without writing. -/
def abandonedVisit : Visit := { inboxVisit with incoming := [] }

/-- One abandoned connection stops the daemon, and the well-formed one after it is not served. -/
theorem abandoned_not_isolated :
    Faultless (messageLibrary inboxFrames) (.new (.unixUser ⟨1000⟩)) inboxVisit ∧
    ¬ Isolated (messageLibrary inboxFrames) (.new (.unixUser ⟨1000⟩))
      [abandonedVisit, inboxVisit] := by
  constructor
  · have ha : (readRequest (messageLibrary inboxFrames) (frameBytes 0)).1 =
        .ok ⟨connectorExchange, verbOf inboxRequest, inboxRequest⟩ := by decide
    have hw : writeFrame (messageLibrary inboxFrames) (requestFrameWithExchange
        (messageLibrary inboxFrames) connectorExchange inboxRequest) = .ok (frameBytes 0) := by
      decide
    have hf : (SignalRouterFrameCodec.default.readFrame (messageLibrary inboxFrames)
        (frameBytes 1)).1 = .ok (replyFrame connectorExchange (verbOf inboxRequest)
          (.inboxListing ⟨[]⟩)) := by decide
    have he : writeReply (messageLibrary inboxFrames) ⟨connectorExchange, verbOf inboxRequest,
        inboxRequest⟩ (.inboxListing ⟨[]⟩) = .ok (frameBytes 1) := by decide
    exact .forwarded rfl ha rfl ⟨rfl, hw, rfl, _, hf, rfl⟩ he rfl
  · rintro ⟨⟨after, ha⟩, _⟩
    cases ha

end PersonaMessage.DaemonIsolation
