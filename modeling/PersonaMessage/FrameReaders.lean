import PersonaMessage.RouterCodec
import PersonaMessage.Supervision
import PersonaMessage.TableLibrary

/-! The two readers of frames, in `src/router.rs` and in `src/supervision.rs`, over any stream
and any relation: both find at the head of a stream what its bytes say, however these are
cut, and leave the rest. -/
namespace PersonaMessage.FrameReaders
open ByteStream ChunkStream SignalFrames FrameProgress RouterCodec Supervision

variable {Q R σ ε : Type}

/-- What bytes hold at their head for a reader with this limit, and what comes after it. -/
def frameAt (lib : SignalLibrary Q R) (limit : ℕ) (bytes : Bytes) :
    Except FrameFault (Frame Q R) × Bytes :=
  match readExact 4 bytes with
  | (.error e, rest) => (.error (.io e), rest)
  | (.ok header, rest) =>
    if limit < fromBeBytes header then (.error (.tooLarge (fromBeBytes header)), rest)
    else match readExact (fromBeBytes header) rest with
      | (.error e, rest) => (.error (.io e), rest)
      | (.ok body, rest) =>
        match lib.decodeLengthPrefixed (header ++ body) with
        | .error e => (.error (.undecodable e), rest)
        | .ok frame => (.ok frame, rest)

/-- A reader of frames with this limit that reports a fault by the given error. -/
structure ReadsFrames (lib : SignalLibrary Q R) (limit : ℕ) (fault : FrameFault → ε)
    (left : σ → Bytes) (readFrame : σ → Except ε (Frame Q R) × σ) : Prop where
  result (s : σ) : (readFrame s).1 = (frameAt lib limit (left s)).1.mapError fault
  rest (s : σ) : left (readFrame s).2 = (frameAt lib limit (left s)).2

variable {lib : SignalLibrary Q R} {limit : ℕ} {reader : Reader σ}

/-- The calls that both readers make on a stream, and the fault that ends them. -/
def readFault (reader : Reader σ) (lib : SignalLibrary Q R) (limit : ℕ) (s : σ) :
    Except FrameFault (Frame Q R) × σ :=
  match reader.readExact 4 s with
  | (.error e, s) => (.error (.io e), s)
  | (.ok header, s) =>
    if limit < fromBeBytes header then (.error (.tooLarge (fromBeBytes header)), s)
    else match reader.readExact (fromBeBytes header) s with
      | (.error e, s) => (.error (.io e), s)
      | (.ok body, s) =>
        match lib.decodeLengthPrefixed (header ++ body) with
        | .error e => (.error (.undecodable e), s)
        | .ok frame => (.ok frame, s)

theorem router_readFault (reader : Reader σ) (lib : SignalLibrary Q R) (limit : ℕ) (s : σ) :
    (⟨limit⟩ : SignalRouterFrameCodec).readFrameFrom reader lib s =
      ((readFault reader lib limit s).1.mapError SignalRouterFrameCodec.frameError,
        (readFault reader lib limit s).2) := by
  simp only [SignalRouterFrameCodec.readFrameFrom, readFault]
  rcases reader.readExact 4 s with ⟨e | header, t⟩
  · rfl
  · dsimp only
    split_ifs
    · rfl
    · rcases reader.readExact (fromBeBytes header) t with ⟨e | body, u⟩
      · rfl
      · dsimp only
        cases lib.decodeLengthPrefixed (header ++ body) <;> rfl

theorem supervision_readFault (reader : Reader σ) (lib : SignalLibrary Q R) (limit : ℕ) (s : σ) :
    (⟨limit⟩ : SupervisionFrameCodec).readFrame reader lib s =
      ((readFault reader lib limit s).1.mapError SupervisionFrameCodec.frameError,
        (readFault reader lib limit s).2) := by
  simp only [SupervisionFrameCodec.readFrame, readFault]
  rcases reader.readExact 4 s with ⟨e | header, t⟩
  · rfl
  · dsimp only
    split_ifs
    · rfl
    · rcases reader.readExact (fromBeBytes header) t with ⟨e | body, u⟩
      · rfl
      · dsimp only
        cases lib.decodeLengthPrefixed (header ++ body) <;> rfl

/-- The calls find what the bytes say, whatever the stream is made of. -/
theorem readFault_frameAt (reader : Reader σ) (lib : SignalLibrary Q R) (limit : ℕ) (s : σ) :
    ((readFault reader lib limit s).1, reader.left (readFault reader lib limit s).2) =
      frameAt lib limit (reader.left s) := by
  simp only [readFault, frameAt, ← reader.exact]
  rcases reader.readExact 4 s with ⟨e | header, t⟩
  · rfl
  · dsimp only
    split_ifs
    · rfl
    · simp only [← reader.exact]
      rcases reader.readExact (fromBeBytes header) t with ⟨e | body, u⟩
      · rfl
      · dsimp only
        cases lib.decodeLengthPrefixed (header ++ body) <;> rfl

theorem readsFrames_of_readFault {fault : FrameFault → ε}
    {readFrame : σ → Except ε (Frame Q R) × σ}
    (h : ∀ s, readFrame s =
      ((readFault reader lib limit s).1.mapError fault, (readFault reader lib limit s).2)) :
    ReadsFrames lib limit fault reader.left readFrame where
  result s := by rw [h, ← readFault_frameAt]
  rest s := by rw [h, ← readFault_frameAt]

theorem router_readsFrames (reader : Reader σ) (lib : SignalLibrary Q R) (limit : ℕ) :
    ReadsFrames lib limit SignalRouterFrameCodec.frameError reader.left
      ((⟨limit⟩ : SignalRouterFrameCodec).readFrameFrom reader lib) :=
  readsFrames_of_readFault (router_readFault reader lib limit)

theorem supervision_readsFrames (reader : Reader σ) (lib : SignalLibrary Q R) (limit : ℕ) :
    ReadsFrames lib limit SupervisionFrameCodec.frameError reader.left
      ((⟨limit⟩ : SupervisionFrameCodec).readFrame reader lib) :=
  readsFrames_of_readFault (supervision_readFault reader lib limit)

theorem mapError_ok_iff {α δ : Type} {fault : δ → ε} {result : Except δ α} {a : α} :
    result.mapError fault = .ok a ↔ result = .ok a := by
  cases result with
  | error e => simp [Except.mapError]
  | ok b => simp [Except.mapError]

/-- The two readers make the same calls, and differ in their errors only. -/
theorem readers_agree (reader : Reader σ) (lib : SignalLibrary Q R) (limit : ℕ) (s : σ) :
    (∀ frame, ((⟨limit⟩ : SignalRouterFrameCodec).readFrameFrom reader lib s).1 = .ok frame ↔
      ((⟨limit⟩ : SupervisionFrameCodec).readFrame reader lib s).1 = .ok frame) ∧
    ((⟨limit⟩ : SignalRouterFrameCodec).readFrameFrom reader lib s).2 =
      ((⟨limit⟩ : SupervisionFrameCodec).readFrame reader lib s).2 := by
  rw [router_readFault, supervision_readFault]
  refine ⟨fun frame => ?_, rfl⟩
  rw [mapError_ok_iff, mapError_ok_iff]

/-- A frame that is encoded within the limit stands at the head of its bytes. -/
theorem frameAt_encoded {frame : Frame Q R} {bytes : Bytes}
    (h : lib.encodeLengthPrefixed frame = .ok bytes) (hl : bytes.length ≤ 4+limit)
    (tail : Bytes) : frameAt lib limit (bytes ++ tail) = (.ok frame, tail) := by
  have hd := lib.decode_encode h
  obtain ⟨body, hb, rfl⟩ := lib.encode_framed h
  have hn : ¬ limit < body.length := by
    rw [List.length_append, toBeBytes_length] at hl
    omega
  rw [List.append_assoc]
  simp only [frameAt, readExact_append (toBeBytes_length _), fromBeBytes_toBeBytes hb, if_neg hn,
    readExact_append (rfl : body.length = body.length), hd]

/-- A stream ends inside a frame: in its prefix, or before its body is complete. -/
def EndsInside (bytes : Bytes) : Prop :=
  bytes.length < 4+fromBeBytes (bytes.take 4) ∨ bytes.length < 4

theorem readExact_enough {size : ℕ} {bytes : Bytes} (h : size ≤ bytes.length) :
    readExact size bytes = (.ok (bytes.take size), bytes.drop size) := if_pos h

theorem frameAt_tooLarge {bytes : Bytes} (h4 : 4 ≤ bytes.length)
    (hl : limit < fromBeBytes (bytes.take 4)) :
    frameAt lib limit bytes = (.error (.tooLarge (fromBeBytes (bytes.take 4))), bytes.drop 4) := by
  simp only [frameAt, readExact_enough h4, if_pos hl]

theorem frameAt_endsInside {bytes : Bytes} (h : EndsInside bytes) :
    ∃ fault, (frameAt lib limit bytes).1 = .error fault := by
  by_cases h4 : bytes.length < 4
  · exact ⟨.io .unexpectedEof, by simp only [frameAt, readExact_short h4]⟩
  · have hlen : bytes.length < 4+fromBeBytes (bytes.take 4) := h.resolve_right h4
    by_cases hl : limit < fromBeBytes (bytes.take 4)
    · exact ⟨.tooLarge (fromBeBytes (bytes.take 4)), by rw [frameAt_tooLarge (by omega) hl]⟩
    · have hshort : (bytes.drop 4).length < fromBeBytes (bytes.take 4) := by
        rw [List.length_drop]
        omega
      exact ⟨.io .unexpectedEof, by simp only [frameAt, readExact_enough (Nat.le_of_not_lt h4),
        if_neg hl, readExact_short hshort]⟩

/-- A frame is found exactly where its prefix, its body and the decoder say so. -/
theorem frameAt_ok_iff {bytes rest : Bytes} {frame : Frame Q R} :
    frameAt lib limit bytes = (.ok frame, rest) ↔
      ∃ chunk, bytes = chunk ++ rest ∧ chunk.length = 4+fromBeBytes (chunk.take 4) ∧
        fromBeBytes (chunk.take 4) ≤ limit ∧ lib.decodeLengthPrefixed chunk = .ok frame := by
  constructor
  · intro h
    unfold frameAt at h
    split at h
    · simp at h
    · next header tail hh =>
      obtain ⟨rfl, hhl⟩ := readExact_ok hh
      split_ifs at h with hl
      · simp at h
      · split at h
        · simp at h
        · next body tail' hb =>
          obtain ⟨rfl, hbl⟩ := readExact_ok hb
          split at h
          · simp at h
          · next f hf =>
            obtain ⟨hfr, rfl⟩ := Prod.mk.inj h
            obtain rfl := Except.ok.inj hfr
            have ht : (header ++ body).take 4 = header := List.take_left' hhl
            refine ⟨header ++ body, by rw [List.append_assoc], ?_, ?_, hf⟩
            · rw [ht, List.length_append]
              omega
            · rw [ht]
              omega
  · rintro ⟨chunk, rfl, hlen, hl, hf⟩
    have hh : (chunk.take 4).length = 4 := by
      rw [List.length_take]
      omega
    have hb : (chunk.drop 4).length = fromBeBytes (chunk.take 4) := by
      rw [List.length_drop]
      omega
    have hs : chunk ++ rest = chunk.take 4 ++ (chunk.drop 4 ++ rest) := by
      rw [← List.append_assoc, List.take_append_drop]
    rw [hs]
    simp only [frameAt, readExact_append hh, if_neg (Nat.not_lt.mpr hl), readExact_append hb,
      List.take_append_drop, hf]

/-- A blocking reader whose frame is complete has what its decoder makes of the bytes it took. -/
theorem frameAt_complete {got : Bytes} (hw : Within limit got)
    (hd : demand limit got = .complete) :
    (frameAt lib limit got).1 = (lib.decodeLengthPrefixed got).mapError .undecodable := by
  obtain ⟨h4, hl, hlen⟩ := hw.complete_length hd
  have hbody : fromBeBytes (got.take 4) ≤ (got.drop 4).length := by
    rw [List.length_drop]
    omega
  have hall : (got.drop 4).take (fromBeBytes (got.take 4)) = got.drop 4 := by
    apply List.take_of_length_le
    rw [List.length_drop]
    omega
  unfold frameAt
  simp only [readExact_enough h4, if_neg (Nat.not_lt.mpr hl), readExact_enough hbody, hall,
    List.take_append_drop]
  cases lib.decodeLengthPrefixed got <;> rfl

theorem demand_more_endsInside {got : Bytes} {wanted : ℕ}
    (hd : demand limit got = .more wanted) : EndsInside got := by
  rcases demand_more_cases hd with h4 | ⟨_, _, hb⟩
  · exact Or.inr h4
  · exact Or.inl hb

/-- A blocking read finds a frame exactly if the bytes it took hold one. -/
theorem frameAt_done {stream : Duplex} {got : Bytes} {event : ReadEvent}
    {result : Except FrameFault (Frame Q R)} (hw : Within limit got)
    (h : readStep lib limit stream got event = some (.done result)) (frame : Frame Q R) :
    (frameAt lib limit got).1 = .ok frame ↔ result = .ok frame := by
  have hinside : ∀ wanted, demand limit got = .more wanted →
      (frameAt lib limit got).1 ≠ .ok frame := by
    intro wanted hd hf
    obtain ⟨fault, he⟩ := @frameAt_endsInside _ _ lib limit got (demand_more_endsInside hd)
    rw [he] at hf
    cases hf
  unfold readStep at h
  split at h
  · split_ifs at h
    split at h <;> simp at h
  · next hd =>
    split_ifs at h
    obtain rfl := Reading.done.inj (Option.some.inj h)
    exact iff_of_false (hinside _ hd) (by simp)
  · next hd =>
    split_ifs at h
    obtain rfl := Reading.done.inj (Option.some.inj h)
    exact iff_of_false (hinside _ hd) (by simp)
  · next hd =>
    obtain rfl := Reading.done.inj (Option.some.inj h)
    obtain ⟨hg, rfl, hl⟩ := hw.tooLarge_length hd
    have htake : got.take 4 = got := List.take_of_length_le hg.le
    have hlarge := @frameAt_tooLarge _ _ lib limit got hg.ge (by rwa [htake])
    rw [hlarge]
    exact iff_of_false (by simp) (by simp)
  · next hd =>
    have hc := @frameAt_complete _ _ lib limit got hw hd
    rw [hc]
    split at h
    · next decoded hf =>
      obtain rfl := Reading.done.inj (Option.some.inj h)
      rw [hf]
      exact Iff.rfl
    · next e hf =>
      obtain rfl := Reading.done.inj (Option.some.inj h)
      rw [hf]
      exact iff_of_false (by simp [Except.mapError]) (by simp)
  · cases h

theorem readExact_length_le (size : ℕ) (bytes : Bytes) :
    (readExact size bytes).2.length ≤ bytes.length := by
  unfold readExact
  split_ifs with hs
  · exact (List.length_drop ..).trans_le (Nat.sub_le _ _)
  · exact Nat.zero_le _

/-- A reader puts nothing back. -/
theorem frameAt_length_le (lib : SignalLibrary Q R) (limit : ℕ) (bytes : Bytes) :
    (frameAt lib limit bytes).2.length ≤ bytes.length := by
  have hh := readExact_length_le 4 bytes
  unfold frameAt
  split
  · next e rest he =>
    rw [he] at hh
    exact hh
  · next header rest he =>
    rw [he] at hh
    split_ifs
    · exact hh
    · have hb := readExact_length_le (fromBeBytes header) rest
      split
      · next e rest' he' =>
        rw [he'] at hb
        exact hb.trans hh
      · next body rest' he' =>
        rw [he'] at hb
        split <;> exact hb.trans hh

/-- Successive calls of a reader of frames. -/
def readFrames (readFrame : σ → Except ε (Frame Q R) × σ) :
    ℕ → σ → List (Except ε (Frame Q R)) × σ
  | 0, s => ([], s)
  | n+1, s =>
    let later := readFrames readFrame n (readFrame s).2
    ((readFrame s).1 :: later.1, later.2)

/-- The library encodes the frame by these bytes, with a body within the limit. -/
def EncodedWithin (lib : SignalLibrary Q R) (limit : ℕ) (frame : Frame Q R) (bytes : Bytes) :
    Prop :=
  lib.encodeLengthPrefixed frame = .ok bytes ∧ bytes.length ≤ 4+limit

theorem ReadsFrames.sequence {fault : FrameFault → ε} {left : σ → Bytes}
    {readFrame : σ → Except ε (Frame Q R) × σ} (h : ReadsFrames lib limit fault left readFrame)
    {frames : List (Frame Q R)} {encodings : List Bytes}
    (he : List.Forall₂ (EncodedWithin lib limit) frames encodings) {s : σ} {tail : Bytes}
    (hs : left s = encodings.flatten ++ tail) :
    (readFrames readFrame frames.length s).1 = frames.map .ok ∧
      left (readFrames readFrame frames.length s).2 = tail := by
  induction he generalizing s with
  | nil => exact ⟨rfl, hs⟩
  | @cons frame bytes frames encodings hframe hframes ih =>
    rw [List.flatten_cons, List.append_assoc] at hs
    have hf := frameAt_encoded hframe.1 hframe.2 (encodings.flatten ++ tail)
    have hresult := h.result s
    have hrest := h.rest s
    rw [hs, hf] at hresult hrest
    obtain ⟨hlater, hleft⟩ := ih hrest
    exact ⟨congrArg₂ List.cons hresult hlater, hleft⟩

/-- What a reader of frames has to do with every stream and every limit. -/
structure ReadsExactly (lib : SignalLibrary Q R) (limit : ℕ) (left : σ → Bytes)
    (readFrame : σ → Except ε (Frame Q R) × σ) : Prop where
  sequence (frames : List (Frame Q R)) (encodings : List Bytes) (s : σ) (tail : Bytes) :
    List.Forall₂ (EncodedWithin lib limit) frames encodings →
      left s = encodings.flatten ++ tail →
      (readFrames readFrame frames.length s).1 = frames.map .ok ∧
        left (readFrames readFrame frames.length s).2 = tail
  truncated (s : σ) : EndsInside (left s) → ∃ e, (readFrame s).1 = .error e
  oversized (s : σ) : 4 ≤ (left s).length → limit < fromBeBytes ((left s).take 4) →
    (∃ e, (readFrame s).1 = .error e) ∧ left (readFrame s).2 = (left s).drop 4
  consumed (s : σ) (frame : Frame Q R) : (readFrame s).1 = .ok frame →
    ∃ chunk, left s = chunk ++ left (readFrame s).2 ∧
      chunk.length = 4+fromBeBytes (chunk.take 4) ∧ lib.decodeLengthPrefixed chunk = .ok frame

theorem ReadsFrames.exactly {fault : FrameFault → ε} {left : σ → Bytes}
    {readFrame : σ → Except ε (Frame Q R) × σ} (h : ReadsFrames lib limit fault left readFrame) :
    ReadsExactly lib limit left readFrame where
  sequence _ _ _ _ he hs := h.sequence he hs
  truncated s hs := by
    obtain ⟨e, he⟩ := @frameAt_endsInside _ _ lib limit _ hs
    exact ⟨fault e, by rw [h.result, he]; rfl⟩
  oversized s h4 hl := by
    have hf := @frameAt_tooLarge _ _ lib limit _ h4 hl
    refine ⟨⟨fault (.tooLarge (fromBeBytes ((left s).take 4))), ?_⟩, ?_⟩
    · rw [h.result, hf]
      rfl
    · rw [h.rest, hf]
  consumed s frame hr := by
    rw [h.result] at hr
    obtain ⟨chunk, hc, hlen, _, hd⟩ := frameAt_ok_iff.mp (Prod.ext (mapError_ok_iff.mp hr) rfl)
    exact ⟨chunk, by rw [h.rest]; exact hc, hlen, hd⟩

/-- Both readers, over every cutting of a stream into pieces. -/
theorem framing_exact (lib : SignalLibrary Q R) (limit : ℕ) :
    ReadsExactly lib limit Chunks.bytes
      ((⟨limit⟩ : SignalRouterFrameCodec).readFrameFrom .chunks lib) ∧
    ReadsExactly lib limit Chunks.bytes
      ((⟨limit⟩ : SupervisionFrameCodec).readFrame .chunks lib) ∧
    ∀ s : Chunks,
      (∀ frame, ((⟨limit⟩ : SignalRouterFrameCodec).readFrameFrom .chunks lib s).1 = .ok frame ↔
        ((⟨limit⟩ : SupervisionFrameCodec).readFrame .chunks lib s).1 = .ok frame) ∧
      ((⟨limit⟩ : SignalRouterFrameCodec).readFrameFrom .chunks lib s).2 =
        ((⟨limit⟩ : SupervisionFrameCodec).readFrame .chunks lib s).2 :=
  ⟨(router_readsFrames .chunks lib limit).exactly,
    (supervision_readsFrames .chunks lib limit).exactly, readers_agree .chunks lib limit⟩

/-- A written frame is read back exactly if its body is within the reader's limit; a longer one
is refused at its prefix. -/
theorem written_readable {lib : MessageLibrary} {frame : MessageFrame} {bytes : Bytes}
    (codec : SignalRouterFrameCodec)
    (h : SignalRouterFrameCodec.writeFrame lib frame = .ok bytes) :
    (codec.readFrame lib bytes = (.ok frame, []) ↔ bytes.length ≤ 4+codec.maximumFrameBytes) ∧
    (4+codec.maximumFrameBytes < bytes.length →
      codec.readFrame lib bytes =
        (.error (.daemonFrameTooLarge (bytes.length-4)), bytes.drop 4)) := by
  have hencode := writeFrame_ok h
  refine ⟨⟨fun hr => ?_, fun hl => readFrame_encoded hencode hl⟩,
    fun hl => readFrame_refused hencode hl⟩
  by_contra hl
  rw [readFrame_refused hencode (by omega)] at hr
  cases hr

/-! A client's send with a body of one byte more than the daemon's limit. -/

/-- The send whose body has `n` characters. -/
def sendFrame (n : ℕ) : MessageFrame :=
  ⟨.request SignalRouterFrameCodec.connectorExchange ⟨.single ⟨⟨"Assert"⟩,
    .messageSubmission ⟨⟨"designer"⟩, .send, ⟨String.ofList (List.replicate n 'a')⟩⟩⟩⟩⟩

theorem sendFrame_injective : Function.Injective sendFrame := by
  intro m n h
  simp only [sendFrame, Frame.mk.injEq, FrameBody.request.injEq, true_and, Request.mk.injEq,
    NonEmpty.single, NonEmpty.mk.injEq, and_true, Operation.mk.injEq,
    MessageRequest.messageSubmission.injEq, MessageSubmission.mk.injEq, MessageBody.mk.injEq,
    String.ofList_inj] at h
  simpa using congrArg List.length h

/-- A library that encodes a send by as many bytes as its body has characters. -/
def sendLibrary (n : ℕ) : MessageLibrary :=
  TableLibrary.messageLibrary ((List.range n).map sendFrame)

theorem sendLibrary_write {k n : ℕ} (hk : k < n) (hn : n < 2^32) :
    SignalRouterFrameCodec.writeFrame (sendLibrary n) (sendFrame k) =
      .ok (TableLibrary.frameBytes k) := by
  have hnodup : ((List.range n).map sendFrame).Nodup :=
    List.nodup_range.map sendFrame_injective
  have hlen : k < ((List.range n).map sendFrame).length := by simpa using hk
  have hidx : ((List.range n).map sendFrame).idxOf (sendFrame k) = k := by
    have h := hnodup.idxOf_getElem k hlen
    simpa using h
  have hencode : (sendLibrary n).encodeLengthPrefixed (sendFrame k) =
      .ok (TableLibrary.frameBytes k) := by
    change TableLibrary.encode _ _ = _
    simp only [TableLibrary.encode, hidx]
    rw [if_pos ⟨hlen, by omega⟩]
  simp only [SignalRouterFrameCodec.writeFrame, hencode]

theorem short_send_readable :
    SignalRouterFrameCodec.default.readFrame (sendLibrary 3) (TableLibrary.frameBytes 2) =
      (.ok (sendFrame 2), []) :=
  (written_readable .default (sendLibrary_write (by decide) (by decide))).1.mpr (by decide)

/-- The client writes the send, and the daemon's reader refuses it. -/
theorem long_send_unreadable :
    ∃ lib bytes, SignalRouterFrameCodec.writeFrame lib (sendFrame (1024*1024+1)) = .ok bytes ∧
      (SignalRouterFrameCodec.default.readFrame lib bytes).1 =
        .error (.daemonFrameTooLarge (1024*1024+1)) := by
  have hw := @sendLibrary_write (1024*1024+1) (1024*1024+2) (by omega) (by omega)
  have hlen : (TableLibrary.frameBytes (1024*1024+1)).length = 4+(1024*1024+1) := by
    rw [TableLibrary.frameBytes, List.length_append, toBeBytes_length, List.length_replicate]
  have hlimit : SignalRouterFrameCodec.default.maximumFrameBytes = 1024*1024 := rfl
  have hr := readFrame_refused (writeFrame_ok hw)
    (show 4+SignalRouterFrameCodec.default.maximumFrameBytes < _ by omega)
  refine ⟨_, _, hw, ?_⟩
  rw [hr, hlen, Nat.add_sub_cancel_left]

end PersonaMessage.FrameReaders
