import PersonaMessage.SupervisionServer

/-! A supervision connection that has been served up to some point. What the loop does with the
whole of it is what it has done so far, followed by what it does with the bytes to come. -/
namespace PersonaMessage.SupervisionServer
open ByteStream ChunkStream SignalFrames FrameProgress FrameReaders Supervision
  SupervisionFrameCodec

variable {σ : Type} {reader : Reader σ} {lib : SupervisionLibrary}

/-- Requests that were asked, and writes that were made, before the rest of a connection. -/
def extend (asked : List ReceivedSupervisionRequest) (sent : List Bytes)
    (later : Server × Served σ × Except IoError Unit) : Server × Served σ × Except IoError Unit :=
  (later.1, ⟨asked ++ later.2.1.asked, sent ++ later.2.1.sent, later.2.1.rest⟩, later.2.2)

/-- The server has answered these requests, and is `now` before the next one. -/
def Frontier (lib : SupervisionLibrary) (start now : Server) (front : Bytes)
    (asked : List ReceivedSupervisionRequest) (sent : List Bytes) : Prop :=
  ∀ fault, (∀ i < asked.length, fault i = none) → ∀ tail,
    serveConnection .whole lib fault start 0 (front ++ tail) =
      extend asked sent (serveConnection .whole lib fault now asked.length tail)

/-- What the loop does where it reads no request. -/
theorem serveConnection_ends {fault : ℕ → Option WriteFault} {server : Server} {k : ℕ}
    {stream rest : σ} {e : IoError}
    (h : SupervisionFrameCodec.server.readRequest reader lib stream = (.error e, rest)) :
    serveConnection reader lib fault server k stream = (server, ⟨[], [], rest⟩, .ok ()) := by
  rw [serveConnection]
  split
  · next he =>
    rw [h] at he
    obtain ⟨_, rfl⟩ := Prod.mk.inj he
    rfl
  · next he =>
    rw [h] at he
    simp at he

/-- What it does with a request that it reads. -/
theorem serveConnection_reads {fault : ℕ → Option WriteFault} {server : Server} {k : ℕ}
    {stream rest : σ} {received : ReceivedSupervisionRequest}
    (h : SupervisionFrameCodec.server.readRequest reader lib stream = (.ok received, rest)) :
    serveConnection reader lib fault server k stream =
      match server.answer lib (fault k) received with
      | (server, sent, .error e) => (server, ⟨[received], sent.toList, rest⟩, .error e)
      | (server, sent, .ok ()) =>
        if server.stopRequested then (server, ⟨[received], sent.toList, rest⟩, .ok ())
        else
          extend [received] sent.toList (serveConnection reader lib fault server (k+1) rest) := by
  rw [serveConnection]
  split
  · next he =>
    rw [h] at he
    simp at he
  · next he =>
    rw [h] at he
    obtain ⟨hr, rfl⟩ := Prod.mk.inj he
    obtain rfl := Except.ok.inj hr
    rfl

theorem answer_unwritten {server : Server} {fault : Option WriteFault}
    {received : ReceivedSupervisionRequest} {e : IoError}
    (h : writeReply lib received.exchange received.verb
      (server.phase.reply received.request).2.2 = .error e) :
    server.answer lib fault received = (server.ask received, none, .error e) := by
  simp only [Server.answer, h, Server.ask]

theorem answer_written {server : Server} {fault : Option WriteFault}
    {received : ReceivedSupervisionRequest} {bytes : Bytes}
    (h : writeReply lib received.exchange received.verb
      (server.phase.reply received.request).2.2 = .ok bytes) :
    server.answer lib fault received =
      (server.ask received, some (send fault bytes).2, (send fault bytes).1) := by
  simp only [Server.answer, h, Server.ask]

section Frontier
variable {start now : Server} {front got : Bytes} {asked : List ReceivedSupervisionRequest}
  {sent : List Bytes} {received : ReceivedSupervisionRequest}

theorem frontier_start (lib : SupervisionLibrary) (start : Server) :
    Frontier lib start start [] [] [] := fun _ _ _ => rfl

/-- Bytes that hold one request are read as that request, and no further. -/
theorem Holds.read (h : Holds lib got received) (tail : Bytes) :
    SupervisionFrameCodec.server.readRequest .whole lib (got ++ tail) = (.ok received, tail) := by
  obtain ⟨rest, hr, hl⟩ := readRequest_holds Reader.whole (got ++ tail) rfl h
  obtain rfl : rest = tail := hl
  exact hr

/-- One more request has been answered, and the connection goes on. -/
theorem Frontier.next (h : Frontier lib start now front asked sent) (hh : Holds lib got received)
    {bytes : Bytes} (hw : writeReply lib received.exchange received.verb
      (now.phase.reply received.request).2.2 = .ok bytes)
    (hs : (now.ask received).stopRequested = false) :
    Frontier lib start (now.ask received) (front ++ got) (asked ++ [received])
      (sent ++ [bytes]) := by
  intro fault hfault tail
  have hnone : ∀ i < asked.length, fault i = none := by
    intro i hi
    apply hfault
    rw [List.length_append]
    omega
  have hk : fault asked.length = none := by
    apply hfault
    rw [List.length_append, List.length_singleton]
    omega
  have hanswer : now.answer lib (fault asked.length) received =
      (now.ask received, some bytes, .ok ()) := by
    rw [answer_written hw, hk]
    rfl
  rw [List.append_assoc, h fault hnone, serveConnection_reads (hh.read tail), hanswer]
  simp only [hs, Bool.false_eq_true, if_false, extend, List.length_append, List.length_singleton,
    Option.toList_some, List.append_assoc]

/-- The connection ends where no further request is read. -/
theorem Frontier.ends (h : Frontier lib start now front asked sent) {e : IoError} {rest : Bytes}
    (hread : SupervisionFrameCodec.server.readRequest .whole lib got = (.error e, rest)) :
    serveConnection .whole lib (fun _ => none) start 0 (front ++ got) =
      (now, ⟨asked, sent, rest⟩, .ok ()) := by
  rw [h _ (fun _ _ => rfl), serveConnection_ends hread]
  simp only [extend, List.append_nil]

/-- The connection ends with a request whose reply cannot be encoded. -/
theorem Frontier.unwritten (h : Frontier lib start now front asked sent)
    (hh : Holds lib got received) {e : IoError}
    (hw : writeReply lib received.exchange received.verb
      (now.phase.reply received.request).2.2 = .error e) :
    serveConnection .whole lib (fun _ => none) start 0 (front ++ got) =
      (now.ask received, ⟨asked ++ [received], sent, []⟩, .error e) := by
  have hread := hh.read []
  rw [List.append_nil] at hread
  rw [h _ (fun _ _ => rfl), serveConnection_reads hread, answer_unwritten hw]
  simp only [extend, Option.toList_none, List.append_nil]

/-- The connection ends with a reply that did not go out as a whole. -/
theorem Frontier.broken (h : Frontier lib start now front asked sent)
    (hh : Holds lib got received) {written rest : Bytes}
    (hw : writeReply lib received.exchange received.verb
      (now.phase.reply received.request).2.2 = .ok (written ++ rest)) (e : IoError) :
    serveConnection .whole lib
        (fun i => if i = asked.length then some ⟨written.length, e⟩ else none) start 0
        (front ++ got) =
      (now.ask received, ⟨asked ++ [received], sent ++ [written], []⟩, .error e) := by
  have hread := hh.read []
  rw [List.append_nil] at hread
  rw [h _ (fun i hi => if_neg hi.ne), serveConnection_reads hread, answer_written hw]
  simp only [if_true, send, extend, List.take_left, Option.toList_some]

/-- The connection ends with the acknowledgement of a stop. -/
theorem Frontier.stopped (h : Frontier lib start now front asked sent)
    (hh : Holds lib got received) {bytes : Bytes}
    (hw : writeReply lib received.exchange received.verb
      (now.phase.reply received.request).2.2 = .ok bytes)
    (hs : (now.ask received).stopRequested = true) :
    serveConnection .whole lib (fun _ => none) start 0 (front ++ got) =
      (now.ask received, ⟨asked ++ [received], sent ++ [bytes], []⟩, .ok ()) := by
  have hread := hh.read []
  rw [List.append_nil] at hread
  rw [h _ (fun _ _ => rfl), serveConnection_reads hread, answer_written hw]
  simp only [hs, if_true, send, extend, Option.toList_some]

end Frontier

/-- One more connection after those that left the flag unset. -/
theorem run_snoc {start server : Server} {connections : List (Connection σ)}
    {served : List (Served σ)}
    (h : run reader lib start (connections.map .ok) = (server, served))
    (hs : server.stopRequested = false) (hstart : start.stopRequested = false)
    (connection : Connection σ) :
    run reader lib start ((connections ++ [connection]).map .ok) =
      ((serveConnection reader lib connection.fault server 0 connection.incoming).1,
        served ++ [(serveConnection reader lib connection.fault server 0
          connection.incoming).2.1]) := by
  induction connections generalizing start served with
  | nil =>
    obtain ⟨rfl, rfl⟩ := Prod.mk.inj h
    simp only [List.nil_append, List.map_cons, List.map_nil, run, hstart, Bool.false_eq_true,
      if_false]
  | cons first connections ih =>
    simp only [List.map_cons, run, hstart, Bool.false_eq_true, if_false] at h
    obtain ⟨hserver, rfl⟩ := Prod.mk.inj h
    have hfirst : (serveConnection reader lib first.fault start 0
        first.incoming).1.stopRequested = false := by
      by_contra hn
      rw [run_stopped (Bool.not_eq_false _ ▸ hn)] at hserver
      rw [hserver] at hn
      exact hn hs
    have hlater := ih (Prod.ext hserver rfl) hfirst
    simp only [List.cons_append, List.map_cons, run, hstart, Bool.false_eq_true, if_false, hlater]

end PersonaMessage.SupervisionServer
