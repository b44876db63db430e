import PersonaMessage.SupervisionSerial

/-! The manager's end of a supervision connection. Whatever it reads there with `read_reply`, and
whenever it does, are the answers to the requests that it wrote, in their order. -/
namespace PersonaMessage.SupervisionServer
open ByteStream ChunkStream SignalFrames FrameReaders Supervision SupervisionFrameCodec

variable {σ τ : Type} {lib : SupervisionLibrary} {profile : SupervisionProfile}

/-- Successive calls of `read_reply`. -/
def readReplies (codec : SupervisionFrameCodec) (reader : Reader τ) (lib : SupervisionLibrary) :
    ℕ → τ → List (Except IoError SupervisionReply) × τ
  | 0, s => ([], s)
  | n+1, s =>
    let later := readReplies codec reader lib n (codec.readReply reader lib s).2
    ((codec.readReply reader lib s).1 :: later.1, later.2)

/-- The bytes of the profile's reply, none if they cannot be encoded. -/
def replyBytes (lib : SupervisionLibrary) (profile : SupervisionProfile)
    (received : ReceivedSupervisionRequest) : Bytes :=
  match writeReply lib received.exchange received.verb (profile.reply received.request) with
  | .error _ => []
  | .ok bytes => bytes

/-- A length prefix says where its frame ends. -/
theorem framed_unique {a b x y : Bytes} (ha : a.length = 4+fromBeBytes (a.take 4))
    (hb : b.length = 4+fromBeBytes (b.take 4)) (h : a ++ x = b ++ y) : a = b ∧ x = y := by
  have h4 : a.take 4 = b.take 4 := by
    have htake := congrArg (List.take 4) h
    rwa [List.take_append_of_le_length (by omega), List.take_append_of_le_length (by omega)]
      at htake
  exact List.append_inj h (by rw [ha, hb, h4])

theorem encoded_framed {Q R : Type} {lib : SignalLibrary Q R} {frame : Frame Q R} {bytes : Bytes}
    (h : lib.encodeLengthPrefixed frame = .ok bytes) :
    bytes.length = 4+fromBeBytes (bytes.take 4) := by
  obtain ⟨body, hb, rfl⟩ := lib.encode_framed h
  rw [List.take_left' (toBeBytes_length _), fromBeBytes_toBeBytes hb, List.length_append,
    toBeBytes_length]

theorem readReply_ok {codec : SupervisionFrameCodec} {reader : Reader τ} {s : τ}
    {payload : SupervisionReply} (h : (codec.readReply reader lib s).1 = .ok payload) :
    ∃ chunk frame, reader.left s = chunk ++ reader.left (codec.readReply reader lib s).2 ∧
      chunk.length = 4+fromBeBytes (chunk.take 4) ∧
      fromBeBytes (chunk.take 4) ≤ codec.maximumFrameBytes ∧
      lib.decodeLengthPrefixed chunk = .ok frame ∧ replyFromFrame lib frame = .ok payload := by
  have hreads := supervision_readsFrames reader lib codec.maximumFrameBytes
  have hresult := hreads.result s
  have hrest := hreads.rest s
  unfold readReply at h ⊢
  cases hf : codec.readFrame reader lib s with
  | mk read rest =>
    rw [hf] at hresult hrest
    cases read with
    | error e =>
      simp only [hf] at h
      cases h
    | ok frame =>
      simp only [hf] at h ⊢
      have hat := mapError_ok_iff.mp hresult.symm
      obtain ⟨chunk, hc, hlen, hl, hd⟩ := frameAt_ok_iff.mp (Prod.ext hat hrest.symm)
      exact ⟨chunk, frame, hc, hlen, hl, hd, h⟩

/-- A reply that is read off the head of a written one is that one. -/
theorem readReply_written {codec : SupervisionFrameCodec} {reader : Reader τ} {s : τ}
    {payload : SupervisionReply} {received : ReceivedSupervisionRequest} {more later : Bytes}
    {bytes : Bytes} (hw : writeReply lib received.exchange received.verb
      (profile.reply received.request) = .ok bytes)
    (hs : reader.left s ++ more = bytes ++ later)
    (h : (codec.readReply reader lib s).1 = .ok payload) :
    payload = profile.reply received.request ∧
      reader.left (codec.readReply reader lib s).2 ++ more = later := by
  have hencode := writeReply_ok hw
  obtain ⟨chunk, frame, hc, hlen, _, hd, hr⟩ := readReply_ok h
  rw [hc, List.append_assoc] at hs
  obtain ⟨rfl, hlater⟩ := framed_unique hlen (encoded_framed hencode) hs
  refine ⟨?_, hlater⟩
  rw [lib.decode_encode hencode] at hd
  obtain rfl := Except.ok.inj hd
  obtain ⟨_, _, _, hbody⟩ := replyFromFrame_iff.mp hr
  simp only [replyFrame, Reply.completed, FrameBody.reply.injEq, Reply.accepted.injEq,
    NonEmpty.single, NonEmpty.mk.injEq, SubReply.ok.injEq, and_true] at hbody
  exact hbody.2.2.2.symm

/-- From no bytes no reply is read. -/
theorem readReply_nil {codec : SupervisionFrameCodec} {reader : Reader τ} {s : τ}
    (hs : reader.left s = []) (payload : SupervisionReply) :
    (codec.readReply reader lib s).1 ≠ .ok payload := by
  intro h
  obtain ⟨chunk, _, hc, hlen, _⟩ := readReply_ok h
  rw [hs] at hc
  obtain ⟨rfl, _⟩ := List.append_eq_nil_iff.mp hc.symm
  rw [List.length_nil] at hlen
  omega

/-- All replies but the last can be encoded. -/
def Encodable (lib : SupervisionLibrary) (profile : SupervisionProfile)
    (asked : List ReceivedSupervisionRequest) : Prop :=
  ∀ received ∈ asked.dropLast, ∃ bytes,
    writeReply lib received.exchange received.verb (profile.reply received.request) = .ok bytes

/-- Replies that are read off the head of those written are the first of them. -/
theorem readReplies_written {codec : SupervisionFrameCodec} {reader : Reader τ}
    {asked : List ReceivedSupervisionRequest} (he : Encodable lib profile asked) {s : τ}
    {more : Bytes} (hs : reader.left s ++ more = asked.flatMap (replyBytes lib profile))
    {payloads : List SupervisionReply}
    (h : (readReplies codec reader lib payloads.length s).1 = payloads.map .ok) :
    payloads <+: asked.map fun received => profile.reply received.request := by
  induction payloads generalizing asked s with
  | nil => exact List.nil_prefix
  | cons payload payloads ih =>
    obtain ⟨hfirst, hlater⟩ := List.cons.inj h
    cases asked with
    | nil =>
      obtain ⟨hnil, _⟩ := List.append_eq_nil_iff.mp hs
      exact absurd hfirst (readReply_nil hnil payload)
    | cons received asked =>
      rw [List.flatMap_cons] at hs
      cases hw : writeReply lib received.exchange received.verb
          (profile.reply received.request) with
      | error e =>
        -- only the last reply is not encoded, so that nothing is left to read
        have hlast : asked = [] := by
          by_contra hne
          obtain ⟨bytes, hb⟩ := he received (by rw [List.dropLast_cons_of_ne_nil hne]; simp)
          rw [hw] at hb
          cases hb
        simp only [replyBytes, hw, hlast, List.flatMap_nil, List.append_nil] at hs
        exact absurd hfirst (readReply_nil (List.append_eq_nil_iff.mp hs).1 payload)
      | ok bytes =>
        simp only [replyBytes, hw] at hs
        obtain ⟨rfl, hrest⟩ := readReply_written hw hs hfirst
        have he' : Encodable lib profile asked := by
          intro received' hm
          apply he
          have hne : asked ≠ [] := by
            rintro rfl
            simp at hm
          rw [List.dropLast_cons_of_ne_nil hne]
          exact List.mem_cons_of_mem _ hm
        exact List.cons_prefix_cons.mpr ⟨rfl, ih he' hrest hlater⟩

theorem takeThrough_prefix {α : Type} {p q : ℕ → α → Bool}
    (hpq : ∀ i a, q i a = true → p i a = true) {as bs : List α} (h : as <+: bs) (k : ℕ) : takeThrough p k as <+: takeThrough q k bs := by
  induction as generalizing bs k with
  | nil => exact List.nil_prefix
  | cons a as ih =>
    obtain ⟨more, rfl⟩ := h
    simp only [List.cons_append, takeThrough]
    by_cases hq : q k a = true
    · rw [if_pos hq, if_pos (hpq k a hq)]
    · rw [if_neg hq]
      split_ifs
      · exact List.cons_prefix_cons.mpr ⟨rfl, List.nil_prefix⟩
      · exact List.cons_prefix_cons.mpr ⟨rfl, ih (List.prefix_append as more) (k+1)⟩

/-- The requests up to the first one to stop, and that one. -/
def untilStop (requests : List ReceivedSupervisionRequest) : List ReceivedSupervisionRequest :=
  takeThrough (fun _ received => decide (received.request = .gracefulStopRequest)) 0 requests

/-- A reply after which the connection goes on went out as a whole. -/
theorem written_whole {fault : ℕ → Option WriteFault} {k : ℕ}
    {received : ReceivedSupervisionRequest} (h : ends lib profile fault k received = false) :
    ∃ bytes, writeReply lib received.exchange received.verb (profile.reply received.request) =
        .ok bytes ∧ (written lib profile (fault k) received).1 = some bytes := by
  simp only [ends, Bool.or_eq_false_iff, Bool.not_eq_false', written] at h ⊢
  cases hw : writeReply lib received.exchange received.verb (profile.reply received.request) with
  | error e =>
    simp [hw, Except.isOk, Except.toBool] at h
  | ok bytes =>
    refine ⟨bytes, rfl, ?_⟩
    cases hf : fault k with
    | none => rfl
    | some fault => simp [hw, hf, send, Except.isOk, Except.toBool] at h

/-- What a connection was sent is the head of the replies to the requests asked of it. -/
theorem sent_written (fault : ℕ → Option WriteFault) (requests : List ReceivedSupervisionRequest)
    (k : ℕ) :
    (((takeThrough (ends lib profile fault) k requests).zipIdx k).filterMap
        fun (received, i) => (written lib profile (fault i) received).1).flatten <+:
      (takeThrough (ends lib profile fault) k requests).flatMap (replyBytes lib profile) ∧
    Encodable lib profile (takeThrough (ends lib profile fault) k requests) := by
  induction requests generalizing k with
  | nil => exact ⟨List.nil_prefix, fun _ h => by simp [takeThrough] at h⟩
  | cons received requests ih =>
    simp only [takeThrough]
    by_cases he : ends lib profile fault k received = true
    · rw [if_pos he]
      refine ⟨?_, fun _ h => by simp at h⟩
      simp only [List.zipIdx_cons, List.zipIdx_nil, List.filterMap_cons, List.filterMap_nil,
        List.flatMap_cons, List.flatMap_nil, List.append_nil, written, replyBytes]
      cases hw : writeReply lib received.exchange received.verb
          (profile.reply received.request) with
      | error e => exact List.nil_prefix
      | ok bytes =>
        cases hf : fault k with
        | none => simp [send]
        | some fault => simpa [send] using List.take_prefix fault.delivered bytes
    · rw [if_neg he]
      obtain ⟨hsent, hencodable⟩ := ih (k+1)
      obtain ⟨bytes, hw, hout⟩ := written_whole (by simpa using he)
      constructor
      · have hbytes : replyBytes lib profile received = bytes := by simp only [replyBytes, hw]
        simp only [List.zipIdx_cons, List.filterMap_cons, hout, List.flatten_cons,
          List.flatMap_cons, hbytes]
        exact (List.prefix_append_right_inj bytes).mpr hsent
      · intro received' hm
        by_cases hne : takeThrough (ends lib profile fault) (k+1) requests = []
        · rw [hne] at hm
          simp at hm
        · rw [List.dropLast_cons_of_ne_nil hne] at hm
          rcases List.mem_cons.mp hm with rfl | hm
          · exact ⟨bytes, hw⟩
          · exact hencodable received' hm

/-- More bytes carry the same requests, and maybe more. -/
theorem Carries.mono {bytes more : Bytes} {requests others : List ReceivedSupervisionRequest}
    (h : Carries lib bytes requests) (h' : Carries lib (bytes ++ more) others) :
    requests <+: others := by
  induction h generalizing others with
  | done => exact List.nil_prefix
  | @next chunk rest received requests first later ih =>
    rw [List.append_assoc] at h'
    generalize hb : chunk ++ (rest ++ more) = bytes at h'
    cases h' with
    | done hnone => exact absurd first (hnone _ _ _ hb.symm)
    | @next chunk' rest' received' requests' first' later' =>
      have hread := first.read (rest ++ more)
      rw [hb, first'.read] at hread
      obtain ⟨he, rfl⟩ := Prod.mk.inj hread
      obtain rfl := Except.ok.inj he
      exact List.cons_prefix_cons.mpr ⟨rfl, ih later'⟩

theorem carries_nil (lib : SupervisionLibrary) : Carries lib [] [] := by
  refine .done fun chunk received rest hs hh => ?_
  have h4 := hh.four
  obtain ⟨rfl, _⟩ := List.append_eq_nil_iff.mp hs.symm
  rw [List.length_nil] at h4
  omega

/-- The connection was served these bytes of what was read of it, and sent what came out. -/
def ServedAlone (lib : SupervisionLibrary) (profile : SupervisionProfile) (stream : Duplex) :
    Prop :=
  ∃ fault incoming served, Serves lib profile Reader.whole.left fault 0 incoming served ∧
    incoming <+: stream.consumed ∧ stream.sent = served.sent.flatten

/-- Whatever is read of what a served connection was sent answers the requests that arrived. -/
theorem ServedAlone.correlated {stream : Duplex} (h : ServedAlone lib profile stream)
    {requests : List ReceivedSupervisionRequest} (hr : Carries lib stream.arrived requests)
    {codec : SupervisionFrameCodec} {reader : Reader τ} {s : τ} (hs : reader.left s <+: stream.sent)
    {payloads : List SupervisionReply}
    (hp : (readReplies codec reader lib payloads.length s).1 = payloads.map .ok) :
    payloads <+: (untilStop requests).map fun received => profile.reply received.request := by
  obtain ⟨fault, incoming, served, hserves, ⟨unserved, hin⟩, hsent⟩ := h
  obtain ⟨asked, hasked, htake⟩ := hserves.asked
  obtain ⟨hwritten, hencodable⟩ := sent_written fault asked 0
  rw [← htake, ← hserves.sent, ← hsent] at hwritten
  rw [← htake] at hencodable
  obtain ⟨more, hmore⟩ := hs.trans hwritten
  have hprefix := readReplies_written hencodable hmore hp
  have harrived : asked <+: requests := by
    rw [Duplex.arrived, ← hin, List.append_assoc] at hr
    exact hasked.mono hr
  have hstop : served.asked <+: untilStop requests := by
    rw [htake]
    exact takeThrough_prefix (fun i received h => by simp [ends, h]) harrived 0
  exact hprefix.trans (hstop.map _)

/-- The reply to a request can be written, and read by this codec. -/
def Readable (lib : SupervisionLibrary) (profile : SupervisionProfile)
    (codec : SupervisionFrameCodec) (received : ReceivedSupervisionRequest) : Prop :=
  ∃ bytes, writeReply lib received.exchange received.verb (profile.reply received.request) =
    .ok bytes ∧ bytes.length ≤ 4+codec.maximumFrameBytes

open TableLibrary
open ProcessMachine (stopLibrary)

/-- A stop request, and the bytes that a manager writes of it. -/
def stopReceived : ReceivedSupervisionRequest :=
  ⟨RouterCodec.SignalRouterFrameCodec.connectorExchange, ⟨"Assert"⟩, .gracefulStopRequest⟩

theorem holds_stop : Holds stopLibrary (frameBytes 0) stopReceived :=
  ⟨rfl, by decide, _, _, rfl, rfl, rfl, rfl⟩

theorem carries_stop : Carries stopLibrary (frameBytes 0) [stopReceived] :=
  .next holds_stop (carries_nil stopLibrary)

end PersonaMessage.SupervisionServer

namespace PersonaMessage.ProcessMachine
open ByteStream ChunkStream SignalFrames FrameReaders Supervision SupervisionFrameCodec
  DaemonStamping Transitions IngressMachine
open SupervisionServer (Server Served WriteFault serveConnection serveConnection_serves
  ServedAlone readReplies untilStop)

variable {lib : SupervisionLibrary} {d : Deployment} {log : List ProcessAction}
  {v : Supervisor} {visits : Visits} {served : List (Served Bytes)} {base now : Server}
  {c : ConnId} {front : Bytes} {asked handled : List ReceivedSupervisionRequest}
  {sent : List Bytes}

theorem Settled.transcript (h : Settled lib v visits served base) :
    SupervisionServer.Transcript lib Reader.whole.left freshServer (visits.map Prod.snd) base
      served := by
  have htranscript := @SupervisionServer.run_transcript _ .whole lib freshServer rfl
    (visits.map fun visit => .ok visit.2)
  have hconnections : (visits.map fun visit => (.ok visit.2 : Except IoError _)).filterMap
      Except.toOption = visits.map Prod.snd := by
    rw [List.filterMap_map, ← List.filterMap_eq_map]
    rfl
  rw [h.run, hconnections] at htranscript
  exact htranscript

/-- The server keeps the profile of its thread. -/
theorem Settled.profile (h : Settled lib v visits served base) :
    base.phase.profile = .message := by
  rw [h.transcript.actor, SupervisionServer.fold_profile]
  rfl

/-- Every finished connection was served on its own. -/
theorem Settled.visited (h : Settled lib v visits served base)
    {visit : ConnId × SupervisionServer.Connection Bytes} (hv : visit ∈ visits) :
    ServedAlone lib .message (v.connections visit.1).stream := by
  have heach := h.transcript.each
  have hlen : (visits.map Prod.snd).length ≤ served.length := by
    rw [List.length_map, h.left.length_eq]
  rw [List.take_of_length_le hlen, List.forall₂_map_left_iff] at heach
  obtain ⟨i, hi, rfl⟩ := List.getElem_of_mem hv
  have hi' : i < served.length := h.left.length_eq ▸ hi
  obtain ⟨taken, sent⟩ := h.left.get hi hi'
  refine ⟨_, _, _, heach.get hi hi', ?_, sent⟩
  cases taken with
  | whole same => exact same ▸ List.prefix_refl _
  | unasked last request => exact last ▸ List.prefix_append _ _

theorem alone_of_serveConnection {stream : Duplex} {fault : ℕ → Option WriteFault}
    {incoming : Bytes} {one : Served Bytes} {server : Server} {result : Except IoError Unit}
    (hprofile : base.phase.profile = .message) (hunset : base.stopRequested = false)
    (hrun : serveConnection .whole lib fault base 0 incoming = (server, one, result))
    (hin : incoming <+: stream.consumed) (hsent : stream.sent = one.sent.flatten) :
    ServedAlone lib .message stream := by
  have hserves := (serveConnection_serves .whole lib fault 0 incoming hunset).1
  rw [hrun, hprofile] at hserves
  exact ⟨fault, incoming, one, hserves, hin, hsent⟩

/-- So was the one in service, as if it had ended now. -/
theorem InService.alone
    (h : InService lib log v visits served c base now front asked handled sent) :
    ServedAlone lib .message (v.connections c).stream := by
  have hprofile := h.settled.profile
  have hunset := h.unset
  have hmidway := h.midway
  obtain ⟨e, rest, hnil⟩ := readRequest_nil lib
  have hends := h.frontier.ends hnil
  rw [List.append_nil] at hends
  generalize v.phase = phase at hmidway
  generalize v.server = server at hmidway
  cases hmidway with
  | reading taken unsent within =>
    exact alone_of_serveConnection hprofile hunset hends (taken ▸ List.prefix_append _ _) unsent
  | asking taken unsent request =>
    exact alone_of_serveConnection hprofile hunset hends (taken ▸ List.prefix_append _ _) unsent
  | @replying _ got written rest received reply taken request encoded out =>
    have hrun := h.frontier.broken request encoded .brokenPipe
    refine alone_of_serveConnection hprofile hunset hrun (taken ▸ List.prefix_refl _) ?_
    rw [out, List.flatten_append, List.flatten_singleton]
  | @checking _ got bytes received taken request encoded out =>
    rw [← List.append_nil bytes] at encoded
    have hrun := h.frontier.broken request encoded .brokenPipe
    refine alone_of_serveConnection hprofile hunset hrun (taken ▸ List.prefix_refl _) ?_
    rw [out, List.flatten_append, List.flatten_singleton]

/-- Nothing was served of a connection that waits. -/
theorem alone_of_unsent {stream : Duplex} (hs : stream.sent = []) :
    ServedAlone lib .message stream := by
  obtain ⟨e, rest, hnil⟩ := readRequest_nil lib
  have hrun := @SupervisionServer.serveConnection_ends _ .whole lib (fun _ => none) freshServer 0
    [] rest e hnil
  exact @alone_of_serveConnection _ freshServer _ _ _ _ _ _ rfl rfl hrun
    List.nil_prefix hs

theorem served_alone {listen : RouterListener} {events : List ProcessEvent} {p : Process}
    (hr : (machine lib d).run (initial d listen) events = some (p, log))
    (hc : c < p.supervisor.opened) :
    ServedAlone lib .message (p.supervisor.connections c).stream := by
  obtain ⟨hu, visits, served, h⟩ := supervised_run hr
  by_cases hq : (p.supervisor.connections c).queued = true
  · exact alone_of_unsent (hu c hq).2
  · have hmem := h.order.mem hq hc
    rcases List.mem_append.mp hmem with hm | hm
    · obtain ⟨visit, hv, rfl⟩ := List.mem_map.mp hm
      obtain ⟨base, hsettled⟩ := h.settled
      exact hsettled.visited hv
    · obtain ⟨_, _, _, _, _, _, service⟩ := h.inService (Option.mem_toList.mp hm)
      exact service.alone

/-- In every run, on every supervision connection: the replies that a manager reads of what it was
sent so far are the profile's replies to the requests of what it wrote so far, one for each from
the first on, up to a stop. -/
theorem manager_correlated {listen : RouterListener} {events : List ProcessEvent} {p : Process}
    (hr : (machine lib d).run (initial d listen) events = some (p, log))
    (hc : c < p.supervisor.opened) {requests : List ReceivedSupervisionRequest}
    (harrived : SupervisionServer.Carries lib (p.supervisor.connections c).stream.arrived requests)
    {τ : Type} {codec : SupervisionFrameCodec} {reader : Reader τ} {s : τ}
    (hs : reader.left s <+: (p.supervisor.connections c).stream.sent)
    {payloads : List SupervisionReply}
    (hp : (readReplies codec reader lib payloads.length s).1 = payloads.map .ok) :
    payloads <+: (untilStop requests).map fun received =>
      SupervisionProfile.message.reply received.request :=
  (served_alone hr hc).correlated harrived hs hp

/-- A stop is requested, and its acknowledgement goes out. -/
def answeredStopEvents : List ProcessEvent :=
  stopRequestEvents ++ [.server .ask, .server (.write (.bytes 5))]

theorem answered_stop_run : ∃ p log,
    (machine stopLibrary ownerDeployment).run (initial ownerDeployment .ready)
      answeredStopEvents = some (p, log) ∧ 0 < p.supervisor.opened ∧
    (p.supervisor.connections 0).stream.arrived = TableLibrary.frameBytes 0 ∧
    (p.supervisor.connections 0).stream.sent = TableLibrary.frameBytes 1 :=
  ⟨_, _, rfl, by decide, rfl, rfl⟩

theorem answered_stop_correlated :
    [acknowledgement] <+: (untilStop [SupervisionServer.stopReceived]).map fun received =>
      SupervisionProfile.message.reply received.request := by
  obtain ⟨p, log, hr, hc, harrived, hsent⟩ := answered_stop_run
  exact @manager_correlated _ _ _ 0 _ _ p hr hc _
    (harrived ▸ SupervisionServer.carries_stop) _ .server .whole (TableLibrary.frameBytes 1)
    (hsent ▸ List.prefix_refl _) [acknowledgement] rfl

end PersonaMessage.ProcessMachine
