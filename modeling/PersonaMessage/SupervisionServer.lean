import PersonaMessage.FrameReaders

/-! The supervision server over whole connections, as its thread runs them one after the
other, and the protocol that it answers. Which of the replies fail to go out is a choice of
the environment. -/
namespace PersonaMessage.SupervisionServer
open ByteStream ChunkStream SignalFrames FrameReaders Supervision SupervisionFrameCodec

/-- `write_all` or `flush` fails after this many bytes have gone out. -/
structure WriteFault where
  delivered : ℕ
  error : IoError

/-- An accepted connection: what it carries, and what becomes of each reply written to it. -/
structure Connection (σ : Type) where
  incoming : σ
  fault : ℕ → Option WriteFault

/-- The actor and the flag of the stop signal. -/
structure Server where
  phase : SupervisionPhase
  stopRequested : Bool
  deriving DecidableEq

/-- The requests of a connection that the actor was asked, the bytes that each write of a reply
got out, and what was left unread. -/
structure Served (σ : Type) where
  asked : List ReceivedSupervisionRequest
  sent : List Bytes
  rest : σ

def send (fault : Option WriteFault) (bytes : Bytes) : Except IoError Unit × Bytes :=
  match fault with
  | none => (.ok (), bytes)
  | some fault => (.error fault.error, bytes.take fault.delivered)

/-- The loop's body after `read_request`: the actor's handler, the encoder and the write. -/
def Server.answer (lib : SupervisionLibrary) (server : Server) (fault : Option WriteFault)
    (received : ReceivedSupervisionRequest) : Server × Option Bytes × Except IoError Unit :=
  let (phase, stop, reply) := server.phase.reply received.request
  let server : Server := ⟨phase, server.stopRequested || stop⟩
  match writeReply lib received.exchange received.verb reply with
  | .error e => (server, none, .error e)
  | .ok bytes => (server, some (send fault bytes).2, (send fault bytes).1)

variable {σ : Type} {reader : Reader σ} {lib : SupervisionLibrary}

/-- The chunk is one frame within the limit, with one operation under its payload's verb. -/
structure Holds (lib : SupervisionLibrary) (chunk : Bytes)
    (received : ReceivedSupervisionRequest) : Prop where
  length : chunk.length = 4+fromBeBytes (chunk.take 4)
  limit : fromBeBytes (chunk.take 4) ≤ server.maximumFrameBytes
  frame : ∃ frame request, lib.decodeLengthPrefixed chunk = .ok frame ∧
    frame.body = .request received.exchange request ∧
    request.operations = .single ⟨received.verb, received.request⟩ ∧
    received.verb = lib.signalVerb received.request

/-- What the server's codec reads of a stream is what stands at the head of its bytes. -/
theorem server_readsFrames (reader : Reader σ) (lib : SupervisionLibrary) :
    ReadsFrames lib server.maximumFrameBytes SupervisionFrameCodec.frameError reader.left
      (server.readFrame reader lib) :=
  supervision_readsFrames reader lib server.maximumFrameBytes

theorem readRequest_ok {stream rest : σ} {received : ReceivedSupervisionRequest}
    (h : server.readRequest reader lib stream = (.ok received, rest)) :
    ∃ chunk, reader.left stream = chunk ++ reader.left rest ∧ Holds lib chunk received := by
  unfold readRequest at h
  split at h
  · simp at h
  · next frame rest' hf =>
    obtain ⟨hr, rfl⟩ := Prod.mk.inj h
    have hresult := (server_readsFrames reader lib).result stream
    have hrest := (server_readsFrames reader lib).rest stream
    rw [hf] at hresult hrest
    have hat : frameAt lib server.maximumFrameBytes (reader.left stream) =
        (.ok frame, reader.left rest') := Prod.ext (mapError_ok_iff.mp hresult.symm) hrest.symm
    obtain ⟨chunk, hc, hlen, hl, hd⟩ := frameAt_ok_iff.mp hat
    obtain ⟨request, hb, ho, hv⟩ := requestFromFrame_iff.mp hr
    exact ⟨chunk, hc, hlen, hl, frame, request, hd, hb, ho, hv⟩

theorem Holds.four {chunk : Bytes} {received : ReceivedSupervisionRequest}
    (h : Holds lib chunk received) : 4 ≤ chunk.length := by
  have := h.length
  omega

theorem readRequest_consumes {stream rest : σ} {received : ReceivedSupervisionRequest}
    (h : server.readRequest reader lib stream = (.ok received, rest)) :
    4+(reader.left rest).length ≤ (reader.left stream).length := by
  obtain ⟨chunk, hc, hh⟩ := readRequest_ok h
  have h4 := hh.four
  rw [hc, List.length_append]
  omega

/-- The loop of `serve_connection` when it has written `k` replies. -/
def serveConnection (reader : Reader σ) (lib : SupervisionLibrary)
    (fault : ℕ → Option WriteFault) (server : Server) (k : ℕ) (stream : σ) :
    Server × Served σ × Except IoError Unit :=
  match _h : SupervisionFrameCodec.server.readRequest reader lib stream with
  | (.error _, rest) => (server, ⟨[], [], rest⟩, .ok ())
  | (.ok received, rest) =>
    match server.answer lib (fault k) received with
    | (server, sent, .error e) => (server, ⟨[received], sent.toList, rest⟩, .error e)
    | (server, sent, .ok ()) =>
      if server.stopRequested then (server, ⟨[received], sent.toList, rest⟩, .ok ())
      else
        let (server, later, result) := serveConnection reader lib fault server (k+1) rest
        (server, ⟨received :: later.asked, sent.toList ++ later.sent, later.rest⟩, result)
  termination_by (reader.left stream).length
  decreasing_by
    have hc := readRequest_consumes _h
    omega

/-- The thread's loop over what its `accept` calls return. A failed one is tried again. -/
def run (reader : Reader σ) (lib : SupervisionLibrary) (server : Server) :
    List (Except IoError (Connection σ)) → Server × List (Served σ)
  | [] => (server, [])
  | accepted :: later =>
    if server.stopRequested then (server, [])
    else match accepted with
      | .error _ => run reader lib server later
      | .ok connection =>
        let (server, served, _) :=
          serveConnection reader lib connection.fault server 0 connection.incoming
        let (server, others) := run reader lib server later
        (server, served :: others)

/-- The longest run of requests at the head of the bytes. -/
inductive Carries (lib : SupervisionLibrary) : Bytes → List ReceivedSupervisionRequest → Prop
  | done {bytes : Bytes}
      (none : ∀ chunk received rest, bytes = chunk ++ rest → ¬ Holds lib chunk received) :
      Carries lib bytes []
  | next {chunk rest : Bytes} {received : ReceivedSupervisionRequest}
      {requests : List ReceivedSupervisionRequest}
      (first : Holds lib chunk received) (later : Carries lib rest requests) :
      Carries lib (chunk ++ rest) (received :: requests)

/-- The write of the reply that the profile gives, framed for the request's exchange and verb. -/
def written (lib : SupervisionLibrary) (profile : SupervisionProfile) (fault : Option WriteFault)
    (received : ReceivedSupervisionRequest) : Option Bytes × Except IoError Unit :=
  match writeReply lib received.exchange received.verb (profile.reply received.request) with
  | .error e => (none, .error e)
  | .ok bytes => (some (send fault bytes).2, (send fault bytes).1)

/-- The `k`-th request of a connection is the last one answered there. -/
def ends (lib : SupervisionLibrary) (profile : SupervisionProfile) (fault : ℕ → Option WriteFault)
    (k : ℕ) (received : ReceivedSupervisionRequest) : Bool :=
  decide (received.request = .gracefulStopRequest) ||
    !(written lib profile (fault k) received).2.isOk

/-- The elements up to the first that the predicate holds of, counted from `k`, and that one. -/
def takeThrough {α : Type} (p : ℕ → α → Bool) : ℕ → List α → List α
  | _, [] => []
  | k, a :: as => if p k a then [a] else a :: takeThrough p (k+1) as

/-- One connection's transcript, from its `k`-th request on. -/
structure Serves (lib : SupervisionLibrary) (profile : SupervisionProfile) (left : σ → Bytes)
    (fault : ℕ → Option WriteFault) (k : ℕ) (stream : σ) (served : Served σ) : Prop where
  asked : ∃ requests, Carries lib (left stream) requests ∧
    served.asked = takeThrough (ends lib profile fault) k requests
  sent : served.sent = (served.asked.zipIdx k).filterMap fun (received, i) =>
    (written lib profile (fault i) received).1
  consumed : 4*served.asked.length+(left served.rest).length ≤ (left stream).length

/-- The actor's handler, and the flag after it. -/
def Server.ask (server : Server) (received : ReceivedSupervisionRequest) : Server :=
  ⟨(server.phase.reply received.request).1,
    server.stopRequested || (server.phase.reply received.request).2.1⟩

theorem Server.answer_eq (server : Server) (fault : Option WriteFault)
    (received : ReceivedSupervisionRequest) :
    server.answer lib fault received =
      (server.ask received, written lib server.phase.profile fault received) := by
  unfold Server.answer written Server.ask
  rw [← (reply_profile server.phase received.request).2]
  dsimp only
  cases writeReply lib received.exchange received.verb
    (server.phase.reply received.request).2.2 <;> rfl

theorem Server.ask_profile (server : Server) (received : ReceivedSupervisionRequest) :
    (server.ask received).phase.profile = server.phase.profile :=
  (reply_profile server.phase received.request).1

theorem Server.ask_stop {server : Server} (received : ReceivedSupervisionRequest)
    (h : server.stopRequested = false) :
    (server.ask received).stopRequested = decide (received.request = .gracefulStopRequest) := by
  have hiff := reply_stop_iff server.phase received.request
  simp [Server.ask, h, ← hiff]

/-- What bytes hold at their head is what the server reads. -/
theorem readRequest_holds (reader : Reader σ) (stream : σ) {chunk tail : Bytes}
    {received : ReceivedSupervisionRequest} (hs : reader.left stream = chunk ++ tail)
    (h : Holds lib chunk received) :
    ∃ rest, SupervisionFrameCodec.server.readRequest reader lib stream = (.ok received, rest) ∧
      reader.left rest = tail := by
  obtain ⟨frame, request, hd, hb, ho, hv⟩ := h.frame
  have hat : frameAt lib SupervisionFrameCodec.server.maximumFrameBytes (reader.left stream) =
      (.ok frame, tail) := frameAt_ok_iff.mpr ⟨chunk, hs, h.length, h.limit, hd⟩
  have hresult := (server_readsFrames reader lib).result stream
  have hrest := (server_readsFrames reader lib).rest stream
  rw [hat] at hresult hrest
  have hf : SupervisionFrameCodec.server.readFrame reader lib stream =
      (.ok frame, (SupervisionFrameCodec.server.readFrame reader lib stream).2) :=
    Prod.ext hresult rfl
  have hr : requestFromFrame lib frame = .ok received :=
    requestFromFrame_iff.mpr ⟨request, hb, ho, hv⟩
  refine ⟨(SupervisionFrameCodec.server.readFrame reader lib stream).2, ?_, hrest⟩
  rw [readRequest, hf]
  exact Prod.ext hr rfl

/-- Any bytes carry a run of requests. -/
theorem exists_carries (lib : SupervisionLibrary) (bytes : Bytes) :
    ∃ requests, Carries lib bytes requests := by
  induction hn : bytes.length using Nat.strong_induction_on generalizing bytes with
  | _ n ih =>
    by_cases h : ∃ chunk received rest, bytes = chunk ++ rest ∧ Holds lib chunk received
    · obtain ⟨chunk, received, rest, rfl, hh⟩ := h
      have h4 := hh.four
      have hlt : rest.length < n := by
        rw [← hn, List.length_append]
        omega
      obtain ⟨requests, hr⟩ := ih rest.length hlt rest rfl
      exact ⟨received :: requests, .next hh hr⟩
    · exact ⟨[], .done fun chunk received rest hs hh => h ⟨chunk, received, rest, hs, hh⟩⟩

/-- The bytes of a connection carry one run of requests only. -/
theorem Carries.unique {bytes : Bytes} {requests others : List ReceivedSupervisionRequest}
    (h : Carries lib bytes requests) (h' : Carries lib bytes others) : requests = others := by
  induction h generalizing others with
  | done hnone =>
    cases h' with
    | done => rfl
    | next first later => exact absurd first (hnone _ _ _ rfl)
  | @next chunk rest received requests first later ih =>
    generalize hb : chunk ++ rest = bytes at h'
    cases h' with
    | done hnone => exact absurd first (hnone _ _ _ hb.symm)
    | @next chunk' rest' received' requests' first' later' =>
      obtain ⟨_, hr, hl⟩ := readRequest_holds Reader.whole (chunk ++ rest) rfl first
      obtain ⟨_, hr', hl'⟩ := readRequest_holds Reader.whole (chunk ++ rest) hb first'
      rw [hr] at hr'
      obtain ⟨he, rfl⟩ := Prod.mk.inj hr'
      obtain rfl := Except.ok.inj he
      obtain rfl : rest = rest' := hl.symm.trans hl'
      rw [ih later']

theorem readRequest_snd (reader : Reader σ) (lib : SupervisionLibrary) (stream : σ) :
    (SupervisionFrameCodec.server.readRequest reader lib stream).2 =
      (SupervisionFrameCodec.server.readFrame reader lib stream).2 := by
  unfold readRequest
  split
  · next he => rw [he]
  · next he => rw [he]

/-- Where the server reads no request there is none, and nothing is put back. -/
theorem readRequest_error {stream rest : σ} {e : IoError}
    (h : SupervisionFrameCodec.server.readRequest reader lib stream = (.error e, rest)) :
    Carries lib (reader.left stream) [] ∧
      (reader.left rest).length ≤ (reader.left stream).length := by
  constructor
  · apply Carries.done
    intro chunk received tail hs hh
    obtain ⟨rest', hr, _⟩ := readRequest_holds reader stream hs hh
    rw [h] at hr
    simp at hr
  · have hrest := readRequest_snd reader lib stream
    have hleft := (server_readsFrames reader lib).rest stream
    rw [h] at hrest
    dsimp only at hrest
    rw [hrest, hleft]
    exact frameAt_length_le ..

theorem carries_read {stream rest : σ} {received : ReceivedSupervisionRequest}
    {requests : List ReceivedSupervisionRequest}
    (h : SupervisionFrameCodec.server.readRequest reader lib stream = (.ok received, rest))
    (hr : Carries lib (reader.left rest) requests) :
    Carries lib (reader.left stream) (received :: requests) := by
  obtain ⟨chunk, hc, hh⟩ := readRequest_ok h
  rw [hc]
  exact .next hh hr

section Loop
variable {profile : SupervisionProfile} {fault : ℕ → Option WriteFault} {k : ℕ}
  {stream rest : σ} {received : ReceivedSupervisionRequest}

/-- The request after which the connection is left. -/
theorem Serves.last
    (h : SupervisionFrameCodec.server.readRequest reader lib stream = (.ok received, rest))
    (he : ends lib profile fault k received = true) :
    Serves lib profile reader.left fault k stream
      ⟨[received], (written lib profile (fault k) received).1.toList, rest⟩ := by
  obtain ⟨requests, hr⟩ := exists_carries lib (reader.left rest)
  have hc := readRequest_consumes h
  refine ⟨⟨received :: requests, carries_read h hr, ?_⟩, ?_, ?_⟩
  · simp only [takeThrough, he, if_true]
  · cases hw : (written lib profile (fault k) received).1 <;>
      simp [hw]
  · simpa using hc

/-- A request after which the connection is read further. -/
theorem Serves.step {later : Served σ}
    (h : SupervisionFrameCodec.server.readRequest reader lib stream = (.ok received, rest))
    (he : ends lib profile fault k received = false)
    (hl : Serves lib profile reader.left fault (k+1) rest later) :
    Serves lib profile reader.left fault k stream
      ⟨received :: later.asked, (written lib profile (fault k) received).1.toList ++ later.sent,
        later.rest⟩ := by
  obtain ⟨requests, hr, ha⟩ := hl.asked
  have hc := readRequest_consumes h
  refine ⟨⟨received :: requests, carries_read h hr, ?_⟩, ?_, ?_⟩
  · rw [ha]
    simp only [takeThrough, he, if_false, Bool.false_eq_true]
  · rw [hl.sent]
    cases hw : (written lib profile (fault k) received).1 <;>
      simp [hw]
  · have hlc := hl.consumed
    dsimp only
    rw [List.length_cons]
    omega

end Loop

/-- The loop answers what its stream carries, and leaves the server as the requests asked
of the actor make it. -/
theorem serveConnection_serves (reader : Reader σ) (lib : SupervisionLibrary)
    (fault : ℕ → Option WriteFault) {server : Server} (k : ℕ) (stream : σ)
    (hstop : server.stopRequested = false) :
    Serves lib server.phase.profile reader.left fault k stream
        (serveConnection reader lib fault server k stream).2.1 ∧
      (serveConnection reader lib fault server k stream).1 =
        (serveConnection reader lib fault server k stream).2.1.asked.foldl Server.ask server := by
  fun_induction serveConnection reader lib fault server k stream with
  | case1 server k stream e rest h =>
    obtain ⟨hnone, hrest⟩ := readRequest_error h
    exact ⟨⟨⟨[], hnone, rfl⟩, rfl, by simpa using hrest⟩, rfl⟩
  | case2 server k stream received rest h server' sent e ha =>
    rw [Server.answer_eq] at ha
    obtain ⟨rfl, hw⟩ := Prod.mk.inj ha
    have he : ends lib server.phase.profile fault k received = true := by
      simp [ends, hw, Except.isOk, Except.toBool]
    have hlast := Serves.last h he
    rw [hw] at hlast
    exact ⟨hlast, rfl⟩
  | case3 server k stream received rest h server' sent ha hs =>
    rw [Server.answer_eq] at ha
    obtain ⟨rfl, hw⟩ := Prod.mk.inj ha
    have he : ends lib server.phase.profile fault k received = true := by
      rw [Server.ask_stop received hstop] at hs
      simp only [ends, hs, Bool.true_or]
    have hlast := Serves.last h he
    rw [hw] at hlast
    exact ⟨hlast, rfl⟩
  | case4 server k stream received rest h server' sent ha hs last later result hl ih =>
    rw [Server.answer_eq] at ha
    obtain ⟨rfl, hw⟩ := Prod.mk.inj ha
    have hs' : (server.ask received).stopRequested = false := by simpa using hs
    have he : ends lib server.phase.profile fault k received = false := by
      rw [Server.ask_stop received hstop] at hs'
      simp [ends, hs', hw, Except.isOk, Except.toBool]
    obtain ⟨hserves, hfold⟩ := ih hs'
    rw [hl, Server.ask_profile] at hserves
    rw [hl] at hfold
    have hstep := Serves.step h he hserves
    rw [hw] at hstep
    exact ⟨hstep, hfold⟩

theorem fold_profile (asked : List ReceivedSupervisionRequest) (server : Server) :
    (asked.foldl Server.ask server).phase.profile = server.phase.profile := by
  induction asked generalizing server with
  | nil => rfl
  | cons received asked ih => rw [List.foldl_cons, ih, Server.ask_profile]

theorem fold_stopRequested {asked : List ReceivedSupervisionRequest} {server : Server} :
    (asked.foldl Server.ask server).stopRequested = true ↔
      server.stopRequested = true ∨
        ∃ received ∈ asked, received.request = .gracefulStopRequest := by
  induction asked generalizing server with
  | nil => simp
  | cons received asked ih =>
    have hiff := reply_stop_iff server.phase received.request
    rw [List.foldl_cons, ih]
    simp [Server.ask, hiff, or_assoc]

theorem mem_takeThrough_dropLast {α : Type} {p : ℕ → α → Bool} {k : ℕ} {as : List α} {a : α}
    (h : a ∈ (takeThrough p k as).dropLast) : ∃ i, p i a = false := by
  induction as generalizing k with
  | nil => simp [takeThrough] at h
  | cons b as ih =>
    simp only [takeThrough] at h
    split_ifs at h with hp
    · simp at h
    · cases ht : takeThrough p (k+1) as with
      | nil => simp [ht] at h
      | cons c cs =>
        rw [ht, List.dropLast_cons_cons] at h
        rcases List.mem_cons.mp h with rfl | hm
        · exact ⟨k, by simpa using hp⟩
        · exact ih (ht ▸ hm)

/-- Only the last request asked on a connection can be a stop. -/
theorem Serves.stop_last {profile : SupervisionProfile} {left : σ → Bytes}
    {fault : ℕ → Option WriteFault} {k : ℕ} {stream : σ} {served : Served σ}
    (h : Serves lib profile left fault k stream served) :
    ∀ received ∈ served.asked.dropLast, received.request ≠ .gracefulStopRequest := by
  intro received hm hstop
  obtain ⟨requests, _, ha⟩ := h.asked
  rw [ha] at hm
  obtain ⟨i, hi⟩ := mem_takeThrough_dropLast hm
  simp [ends, hstop] at hi

theorem mem_dropLast_append {α : Type} {as bs : List α} {a : α} (h : a ∈ (as ++ bs).dropLast) :
    (bs = [] ∧ a ∈ as.dropLast) ∨ (bs ≠ [] ∧ a ∈ as) ∨ a ∈ bs.dropLast := by
  by_cases hb : bs = []
  · subst hb
    exact Or.inl ⟨rfl, by simpa using h⟩
  · rw [List.dropLast_append_of_ne_nil hb] at h
    rcases List.mem_append.mp h with hm | hm
    · exact Or.inr (Or.inl ⟨hb, hm⟩)
    · exact Or.inr (Or.inr hm)

/-- The transcript of the protocol on these connections: each of them is served on its own until
a stop is asked, and the actor has run its handler once for each request. -/
structure Transcript (lib : SupervisionLibrary) (left : σ → Bytes) (start : Server)
    (connections : List (Connection σ)) (final : Server) (served : List (Served σ)) : Prop where
  each : List.Forall₂ (fun connection => Serves lib start.phase.profile left connection.fault 0
    connection.incoming) (connections.take served.length) served
  actor : final = (served.flatMap Served.asked).foldl Server.ask start
  stop_iff : final.stopRequested = true ↔
    ∃ received ∈ served.flatMap Served.asked, received.request = .gracefulStopRequest
  stop_last : ∀ received ∈ (served.flatMap Served.asked).dropLast,
    received.request ≠ .gracefulStopRequest
  unserved : served.length < connections.length → final.stopRequested = true

section Transcript
variable {server : Server} {connection : Connection σ} {connections : List (Connection σ)}
  {first : Served σ}

/-- After a connection on which a stop was asked nothing is served. -/
theorem Transcript.last {left : σ → Bytes} (hstop : server.stopRequested = false)
    (hf : Serves lib server.phase.profile left connection.fault 0 connection.incoming first)
    (hs : (first.asked.foldl Server.ask server).stopRequested = true) :
    Transcript lib left server (connection :: connections)
      (first.asked.foldl Server.ask server) [first] := by
  have hflat : [first].flatMap Served.asked = first.asked := by simp
  have hiff := @fold_stopRequested first.asked server
  refine ⟨.cons hf .nil, ?_, ?_, ?_, fun _ => hs⟩
  · rw [hflat]
  · rw [hflat]
    simpa [hstop] using hiff
  · rw [hflat]
    exact hf.stop_last

/-- A connection without a stop leaves the protocol to the later ones. -/
theorem Transcript.next {left : σ → Bytes} {final : Server} {later : List (Served σ)}
    (hf : Serves lib server.phase.profile left connection.fault 0 connection.incoming first)
    (hs : (first.asked.foldl Server.ask server).stopRequested = false)
    (hl : Transcript lib left (first.asked.foldl Server.ask server) connections final later) :
    Transcript lib left server (connection :: connections) final (first :: later) := by
  have hnone : ∀ received ∈ first.asked, received.request ≠ .gracefulStopRequest := by
    intro received hm hr
    have hset := (@fold_stopRequested first.asked server).mpr (Or.inr ⟨received, hm, hr⟩)
    rw [hs] at hset
    cases hset
  have heach := hl.each
  rw [fold_profile] at heach
  refine ⟨.cons hf heach, ?_, ?_, ?_, ?_⟩
  · rw [List.flatMap_cons, List.foldl_append]
    exact hl.actor
  · rw [hl.stop_iff, List.flatMap_cons]
    constructor
    · rintro ⟨received, hm, hr⟩
      exact ⟨received, List.mem_append_right _ hm, hr⟩
    · rintro ⟨received, hm, hr⟩
      rcases List.mem_append.mp hm with hm | hm
      · exact absurd hr (hnone received hm)
      · exact ⟨received, hm, hr⟩
  · intro received hm
    rw [List.flatMap_cons] at hm
    rcases mem_dropLast_append hm with ⟨_, hm⟩ | ⟨_, hm⟩ | hm
    · exact hf.stop_last received hm
    · exact hnone received hm
    · exact hl.stop_last received hm
  · intro hlen
    apply hl.unserved
    simpa using hlen

end Transcript

theorem run_stopped {server : Server} (h : server.stopRequested = true)
    (accepts : List (Except IoError (Connection σ))) :
    run reader lib server accepts = (server, []) := by
  cases accepts with
  | nil => rfl
  | cons accepted later => simp only [run, h, if_true]

theorem run_transcript {server : Server} (hstop : server.stopRequested = false)
    (accepts : List (Except IoError (Connection σ))) :
    Transcript lib reader.left server (accepts.filterMap Except.toOption)
      (run reader lib server accepts).1 (run reader lib server accepts).2 := by
  induction accepts generalizing server with
  | nil => exact ⟨.nil, rfl, by simp [run, hstop], by simp [run], by simp [run]⟩
  | cons accepted later ih =>
    cases accepted with
    | error e =>
      have hrun : run reader lib server (.error e :: later) = run reader lib server later := by
        simp [run, hstop]
      rw [hrun]
      exact ih hstop
    | ok connection =>
      obtain ⟨hserves, hfold⟩ :=
        serveConnection_serves reader lib connection.fault 0 connection.incoming hstop
      simp only [run, hstop, Bool.false_eq_true, if_false, List.filterMap_cons, Except.toOption]
      rw [hfold]
      by_cases hs : (List.foldl Server.ask server
          (serveConnection reader lib connection.fault server 0
            connection.incoming).2.1.asked).stopRequested = true
      · rw [run_stopped hs]
        exact .last hstop hserves hs
      · have hs' := Bool.eq_false_iff.mpr hs
        exact .next hserves hs' (ih hs')

end PersonaMessage.SupervisionServer
