import PersonaMessage.IngressProvenance

/-! How many steps the main thread can make before it looks at the stop flag again. A read is
bounded by the limit on frames and a write by the length that a prefix can announce, so each
connection is served in a bounded number of calls. -/
namespace PersonaMessage.IngressMachine
open ByteStream SignalFrames FrameProgress RouterCodec SignalRouterFrameCodec DaemonStamping
  DaemonConnection Transitions

/-- No encoded frame is longer: its prefix has 32 bits. -/
def longestWire : ℕ := 4+(2^32-1)

/-- The calls that a read of one frame can still make: one for each byte, and the check. -/
def readsLeft (got : Bytes) : ℕ := 4+limit-got.length+1

/-- The calls left once a reply is encoded; the loop's next poll and the end of `run` count. -/
def replyLeft (rest : Bytes) : ℕ := rest.length+2

def awaitLeft (got : Bytes) : ℕ := readsLeft got+(longestWire+2)

def submitLeft (rest : Bytes) : ℕ := rest.length+awaitLeft []

def forwardLeft : ℕ := longestWire+awaitLeft []+2

def requestLeft (got : Bytes) : ℕ := readsLeft got+forwardLeft

variable (d : Deployment)

/-- The steps that the main thread can make from a phase on without a poll that sees the flag
unset. -/
def stepsLeft : MainPhase → ℕ
  | .polling => 2
  | .scanning k => d.bindings.length-k+(requestLeft []+2)
  | .sleeping => 3
  | .opening _ _ => requestLeft []+1
  | .reading _ _ got => requestLeft got
  | .forwarding _ _ _ => forwardLeft
  | .connecting _ _ _ => longestWire+awaitLeft []+1
  | .submitting _ _ rest => submitLeft rest
  | .awaiting _ _ got => awaitLeft got
  | .replying _ rest => replyLeft rest
  | .stopping => 1
  | .exited _ => 0

/-- The steps of one turn of the accept loop, from a poll to the next one. -/
def turnBound : ℕ := d.bindings.length+(requestLeft []+2)

def isMain : Event → Bool
  | .main _ => true
  | _ => false

/-- A poll that sees the flag unset starts another turn. -/
def startsTurn : Event → Bool
  | .main (.poll false) => true
  | _ => false

variable {d} {log out : List Action} {s t : Ingress} {c : ConnId}

theorem encoded_length {Q R : Type} {lib : SignalLibrary Q R} {frame : Frame Q R} {bytes : Bytes}
    (h : lib.encodeLengthPrefixed frame = .ok bytes) : bytes.length ≤ longestWire := by
  obtain ⟨body, hb, rfl⟩ := lib.encode_framed h
  rw [List.length_append, toBeBytes_length, longestWire]
  omega

theorem within_length {got : Bytes} (h : Within limit got) : got.length ≤ 4+limit := by
  rcases h with h | h <;> omega

/-- A read that goes on takes at least one byte, and stays within the limit. -/
theorem readsLeft_more {stream stream' : Duplex} {got got' : Bytes} {event : ReadEvent}
    (h : readStep d.lib limit stream got event = some (.more stream' got')) :
    readsLeft got'+1 ≤ readsLeft got := by
  obtain ⟨_, _, _, _, _, hw⟩ := readStep_more h
  have hl := readStep_longer h
  have hb := within_length hw
  simp only [readsLeft]
  omega

theorem readsLeft_pos (got : Bytes) : 1 ≤ readsLeft got := Nat.le_add_left ..

theorem stepsLeft_startReply {received : ReceivedMessageRequest} {reply : MessageReply} :
    stepsLeft d (s.startReply d c received reply).phase ≤ longestWire+2 := by
  rcases startReply_cases s c received reply with ⟨result, ht⟩ | ⟨bytes, he, ht⟩
  · rw [ht]
    exact Nat.zero_le _
  · rw [ht]
    have hl := encoded_length (writeFrame_ok he)
    exact Nat.add_le_add_right hl 2

theorem stepsLeft_stepScan {k : ℕ} (hp : s.phase = .scanning k) :
    stepsLeft d (stepScan d s k).1.phase+1 ≤ stepsLeft d s.phase := by
  rw [hp]
  unfold stepScan
  split
  · simp only [stepsLeft, requestLeft, forwardLeft]
    omega
  · next authority ha =>
    have hk : k < d.bindings.length := (List.getElem?_eq_some_iff.mp ha).1
    split
    · simp only [stepsLeft]
      omega
    · simp only [Ingress.setConnection, stepsLeft]
      omega

theorem stepsLeft_stepReadRequest {ingress : MessageIngressContext} {got : Bytes}
    {event : ReadEvent} (hp : s.phase = .reading c ingress got)
    (h : stepReadRequest d s c ingress got event = some t) :
    stepsLeft d t.phase+1 ≤ stepsLeft d s.phase := by
  rw [hp]
  have hpos := readsLeft_pos got
  rcases stepReadRequest_cases h with ⟨result, rfl⟩ | ⟨stream, got', hr, rfl⟩ |
    ⟨frame, received, hr, ha, rfl⟩
  · simp only [Ingress.exit, stepsLeft, requestLeft]
    omega
  · have hm := readsLeft_more hr
    simp only [Ingress.setStream, Ingress.setConnection, stepsLeft, requestLeft]
    omega
  · simp only [stepsLeft, requestLeft]
    omega

theorem stepsLeft_stepStamp {ingress : MessageIngressContext} {received : ReceivedMessageRequest}
    (hp : s.phase = .forwarding c ingress received) (now : ℤ) :
    stepsLeft d (stepStamp d s c ingress received now).phase+1 ≤ stepsLeft d s.phase := by
  rw [hp]
  rcases stepStamp_cases s c ingress received now with ⟨result, ht⟩ | ⟨image, _, ht⟩ |
    ⟨reply, _, ht⟩
  · rw [ht]
    exact Nat.succ_le_of_lt (Nat.succ_pos _)
  · rw [ht]
    exact le_rfl
  · rw [ht]
    have hr := @stepsLeft_startReply d s c received reply
    have hl : longestWire+2+1 ≤ forwardLeft := by
      simp only [forwardLeft, awaitLeft]
      omega
    exact (Nat.add_le_add_right hr 1).trans hl

theorem stepsLeft_stepConnect {received : ReceivedMessageRequest} {image : MessageRequest}
    (hp : s.phase = .connecting c received image)
    (h : stepConnect d s c received image = some t) :
    stepsLeft d t.phase+1 ≤ stepsLeft d s.phase := by
  rw [hp]
  rcases stepConnect_cases h with ⟨result, rfl⟩ | ⟨bytes, _, he, rfl⟩
  · exact Nat.succ_le_of_lt (Nat.succ_pos _)
  · have hl := encoded_length (writeFrame_ok he)
    simp only [stepsLeft, submitLeft]
    omega

theorem stepsLeft_stepSubmit {received : ReceivedMessageRequest} {rest : Bytes}
    {event : WriteEvent} (hp : s.phase = .submitting c received rest)
    (h : stepSubmit d s c received rest event = some (t, out)) :
    stepsLeft d t.phase+1 ≤ stepsLeft d s.phase := by
  rw [hp]
  rcases stepSubmit_cases h with ⟨result, rfl, rfl⟩ | ⟨stream, hw, rfl, rfl⟩ |
    ⟨stream, rest', hw, _, rfl, rfl⟩
  · simp only [Ingress.exit, stepsLeft, submitLeft, awaitLeft]
    omega
  · have hl := writeStep_shorter hw
    simp only [stepsLeft, submitLeft]
    omega
  · have hl := writeStep_shorter hw
    simp only [stepsLeft, submitLeft]
    omega

theorem stepsLeft_stepAwait {received : ReceivedMessageRequest} {got : Bytes} {event : ReadEvent}
    (hp : s.phase = .awaiting c received got)
    (h : stepAwait d s c received got event = some (t, out)) :
    stepsLeft d t.phase+1 ≤ stepsLeft d s.phase := by
  rw [hp]
  have hpos := readsLeft_pos got
  rcases stepAwait_cases h with ⟨result, rfl, rfl⟩ | ⟨stream, got', hr, rfl, rfl⟩ |
    ⟨frame, reply, hr, ha, rfl, rfl⟩
  · simp only [Ingress.exit, stepsLeft, awaitLeft]
    omega
  · have hm := readsLeft_more hr
    simp only [stepsLeft, awaitLeft]
    omega
  · have hs := @stepsLeft_startReply d { s with root := s.root.countForward } c received reply
    have hl : longestWire+2+1 ≤ awaitLeft got := by
      simp only [awaitLeft]
      omega
    exact (Nat.add_le_add_right hs 1).trans hl

theorem stepsLeft_stepReply {rest : Bytes} {event : WriteEvent} (hp : s.phase = .replying c rest)
    (h : stepReply d s c rest event = some (t, out)) :
    stepsLeft d t.phase+1 ≤ stepsLeft d s.phase := by
  rw [hp]
  rcases stepReply_cases h with ⟨result, rfl, rfl⟩ | ⟨stream, hw, rfl, rfl⟩ |
    ⟨stream, rest', hw, _, rfl, rfl⟩
  · simp only [Ingress.exit, stepsLeft, replyLeft]
    omega
  · have hl := writeStep_shorter hw
    simp only [Ingress.setStream, Ingress.setConnection, stepsLeft, replyLeft]
    omega
  · have hl := writeStep_shorter hw
    simp only [Ingress.setStream, Ingress.setConnection, stepsLeft, replyLeft]
    omega

/-- Every step of the main thread uses one of those left, but for a poll that sees the flag
unset, which starts another turn. -/
theorem stepsLeft_stepMain {event : MainEvent} (h : stepMain d s event = some (t, out)) :
    stepsLeft d t.phase+1 ≤
      stepsLeft d s.phase+(if startsTurn (.main event) then turnBound d else 0) := by
  have hexit : ∀ result : Result Unit, stepsLeft d (s.exit result).phase = 0 := fun _ => rfl
  unfold stepMain at h
  split at h
  · next stop hp =>
    obtain ⟨rfl, rfl⟩ := Prod.mk.inj (Option.some.inj h)
    rw [hp]
    cases stop with
    | false =>
      simp only [startsTurn, stepsLeft, turnBound, Bool.false_eq_true, if_false, if_true]
      omega
    | true => exact le_rfl
  · next k hp =>
    obtain ⟨rfl, rfl⟩ := Prod.mk.inj (Option.some.inj h)
    exact stepsLeft_stepScan hp
  · next k e hp =>
    split_ifs at h
    obtain ⟨rfl, rfl⟩ := Prod.mk.inj (Option.some.inj h)
    rw [hexit, hp]
    simp only [stepsLeft]
    omega
  · next hp =>
    obtain ⟨rfl, rfl⟩ := Prod.mk.inj (Option.some.inj h)
    rw [hp]
    exact le_rfl
  · next c authority available hp =>
    split_ifs at h
    · obtain ⟨rfl, rfl⟩ := Prod.mk.inj (Option.some.inj h)
      rw [hp]
      exact le_rfl
    · obtain ⟨rfl, rfl⟩ := Prod.mk.inj (Option.some.inj h)
      rw [hexit, hp]
      simp only [stepsLeft]
      omega
  · next c ingress got event hp =>
    obtain ⟨u, hu, he⟩ := Option.map_eq_some_iff.mp h
    obtain ⟨rfl, rfl⟩ := Prod.mk.inj he
    exact stepsLeft_stepReadRequest hp hu
  · next c ingress received now hp =>
    obtain ⟨rfl, rfl⟩ := Prod.mk.inj (Option.some.inj h)
    exact stepsLeft_stepStamp hp now
  · next detail hp =>
    obtain ⟨rfl, rfl⟩ := Prod.mk.inj (Option.some.inj h)
    rw [hexit, hp]
    simp only [stepsLeft, forwardLeft]
    omega
  · next c received image hp =>
    obtain ⟨u, hu, he⟩ := Option.map_eq_some_iff.mp h
    obtain ⟨rfl, rfl⟩ := Prod.mk.inj he
    exact stepsLeft_stepConnect hp hu
  · next c received rest event hp => exact stepsLeft_stepSubmit hp h
  · next c received got event hp => exact stepsLeft_stepAwait hp h
  · next c rest event hp => exact stepsLeft_stepReply hp h
  · next outcome hp =>
    obtain ⟨rfl, rfl⟩ := Prod.mk.inj (Option.some.inj h)
    obtain ⟨result, ht⟩ := stopRoot_exit s outcome
    rw [ht, hexit, hp]
    exact le_rfl
  · cases h

/-- In a reachable state the main thread is within one turn of its loop. -/
theorem stepsLeft_le (hi : Inv d log s) :
    stepsLeft d s.phase ≤ turnBound d := by
  have hserves := hi.serves
  cases hp : s.phase with
  | submitting c received rest =>
    rw [hp] at hserves
    obtain ⟨_, _, image, wire, _, he, hw, _⟩ := hserves
    have hl := encoded_length (writeFrame_ok he)
    rw [← hw, List.length_append] at hl
    simp only [stepsLeft, submitLeft, turnBound, requestLeft, forwardLeft]
    omega
  | replying c rest =>
    rw [hp] at hserves
    obtain ⟨_, received, reply, _, he⟩ := hserves
    have hl := encoded_length (writeFrame_ok he)
    rw [List.length_append] at hl
    simp only [stepsLeft, replyLeft, turnBound, requestLeft, forwardLeft]
    omega
  | _ =>
    simp only [stepsLeft, turnBound, requestLeft, forwardLeft, awaitLeft, readsLeft,
      List.length_nil]
    omega

def mainCost (event : Event) : ℕ := if isMain event then 1 else 0

/-- What the other parties do leaves the main thread where it is. -/
theorem stepsLeft_step {event : Event} (h : step d s event = some (t, out)) :
    stepsLeft d t.phase+mainCost event ≤
      stepsLeft d s.phase+(if startsTurn event then turnBound d else 0) := by
  unfold step at h
  split_ifs at h
  cases event with
  | main event => exact stepsLeft_stepMain h
  | client event =>
    rcases stepClient_cases h with ⟨_, _, _, rfl, _⟩ | ⟨_, _, _, _, rfl, _⟩ <;> exact le_rfl
  | router event =>
    obtain ⟨rfl, rfl⟩ := Prod.mk.inj (Option.some.inj h)
    cases event <;> exact le_rfl

theorem sum_indicator {α : Type} (p : α → Bool) (n : ℕ) (xs : List α) :
    (xs.map fun x => if p x then n else 0).sum = n*xs.countP p := by
  induction xs with
  | nil => rfl
  | cons x xs ih =>
    rw [List.map_cons, List.sum_cons, ih, List.countP_cons]
    split_ifs <;> ring

/-- From any state on: the steps of the main thread, and those it has left. -/
theorem mainSteps_run {events : List Event} (hr : (machine d).run s events = some (t, log)) :
    events.countP isMain+stepsLeft d t.phase ≤
      stepsLeft d s.phase+turnBound d*events.countP startsTurn := by
  have h := @Machine.run_amortised _ _ _ (machine d) (fun _ _ => True)
    (fun s => stepsLeft d s.phase) mainCost (fun e => if startsTurn e then turnBound d else 0)
    (fun _ _ => trivial) (fun _ hs => stepsLeft_step hs) _ _ _ [] _ trivial hr
  have hmain : (events.map mainCost).sum = events.countP isMain := by
    rw [← Nat.one_mul (events.countP isMain)]
    exact sum_indicator isMain 1 events
  rw [hmain, sum_indicator] at h
  omega

end PersonaMessage.IngressMachine
