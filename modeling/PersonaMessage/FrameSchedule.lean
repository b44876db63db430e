import PersonaMessage.Transitions
import PersonaMessage.FrameProgress

/-! A machine with a thread that reads or writes a frame, and a peer at the other end: there is a
run in which the thread comes to the end of its call, with what the peer has for it. -/
namespace PersonaMessage.FrameSchedule
open ByteStream SignalFrames FrameProgress Transitions

variable {Q R : Type} {σ ι ο : Type*}

/-- In these states the thread reads a frame, and the peer can close. -/
structure Reads (M : Machine σ ι ο) (lib : SignalLibrary Q R) (limit : ℕ)
    (state : Duplex → Bytes → σ) : Prop where
  more {stream stream' : Duplex} {got got' : Bytes} {event : ReadEvent} :
    readStep lib limit stream got event = some (.more stream' got') →
      M.Reaches (state stream got) [] (state stream' got')
  close (stream : Duplex) (got : Bytes) :
    M.Reaches (state stream got) [] (state stream.peerClose got)

/-- In these states the thread has the rest of a frame to write, and the peer can read. -/
structure Writes (M : Machine σ ι ο) (capacity : ℕ) (state : Duplex → Bytes → σ) : Prop where
  more {stream stream' : Duplex} {rest rest' : Bytes} {event : WriteEvent} :
    writeStep capacity stream rest event = some (.ok (stream', rest')) → rest' ≠ [] →
      M.Reaches (state stream rest) [] (state stream' rest')
  fetch (stream : Duplex) (rest : Bytes) (count : ℕ) :
    M.Reaches (state stream rest) [] (state (stream.peerRead count) rest)

/-- What a read comes to that has got these bytes, when no others come before this error. -/
inductive Finishes (lib : SignalLibrary Q R) (limit : ℕ) (ending : IoError) (got rest : Bytes) :
    Except FrameFault (Frame Q R) → Prop
  | ended {wanted : ℕ} (short : demand limit got = .more wanted) (none : rest = []) :
      Finishes lib limit ending got rest (.error (.io ending))
  | refused {length : ℕ} (large : demand limit got = .tooLarge length) :
      Finishes lib limit ending got rest (.error (.tooLarge length))
  | undecodable {e : FrameError} (whole : demand limit got = .complete)
      (decoded : lib.decodeLengthPrefixed got = .error e) :
      Finishes lib limit ending got rest (.error (.undecodable e))
  | frame {frame : Frame Q R} (whole : demand limit got = .complete)
      (decoded : lib.decodeLengthPrefixed got = .ok frame) :
      Finishes lib limit ending got rest (.ok frame)

/-- The last call of a read: the stream is what is left of it, still open if a frame was read. -/
structure ReadEnds (M : Machine σ ι ο) (lib : SignalLibrary Q R) (limit : ℕ)
    (state : Duplex → Bytes → σ) (ending : IoError) (stream : Duplex) (got : Bytes)
    (stream' : Duplex) (got' : Bytes) (event : ReadEvent)
    (result : Except FrameFault (Frame Q R)) : Prop where
  reaches : M.Reaches (state stream got) [] (state stream' got')
  last : readStep lib limit stream' got' event = some (.done result)
  within : Within limit got'
  bytes : got ++ stream.pending = got' ++ stream'.pending
  finishes : Finishes lib limit ending got' stream'.pending result
  sent : stream'.sent = stream.sent
  closed : (∃ frame, result = .ok frame) → stream'.closed = stream.closed

variable {M : Machine σ ι ο} {lib : SignalLibrary Q R} {limit capacity : ℕ}
  {state : Duplex → Bytes → σ}

/-- A reader that has got a whole frame, or a length that it refuses, has only to check it. -/
theorem check_finishes (lib : SignalLibrary Q R) (ending : IoError) (stream : Duplex)
    {got : Bytes} (h : ∀ wanted, demand limit got ≠ .more wanted) :
    ∃ result, readStep lib limit stream got .check = some (.done result) ∧
      Finishes lib limit ending got stream.pending result := by
  cases hd : demand limit got with
  | more wanted => exact absurd hd (h wanted)
  | tooLarge length => exact ⟨_, by simp only [readStep, hd], .refused hd⟩
  | complete =>
    cases hf : lib.decodeLengthPrefixed got with
    | error e => exact ⟨_, by simp only [readStep, hd, hf], .undecodable hd hf⟩
    | ok frame => exact ⟨_, by simp only [readStep, hd, hf], .frame hd hf⟩

theorem Reads.checked (ending : IoError) (stream : Duplex) {got : Bytes} (hw : Within limit got)
    (h : ∀ wanted, demand limit got ≠ .more wanted) :
    ∃ stream' got' event result,
      ReadEnds M lib limit state ending stream got stream' got' event result := by
  obtain ⟨result, hlast, hf⟩ := check_finishes lib ending stream h
  exact ⟨stream, got, .check, result, .refl _, hlast, hw, rfl, hf, rfl, fun _ => rfl⟩

/-- A read byte by byte of what the peer has written, and then of its end if that is reached. -/
theorem Reads.finish (h : Reads M lib limit state) (ending : IoError) (stream : Duplex)
    {got : Bytes} (hw : Within limit got) :
    ∃ stream' got' event result,
      ReadEnds M lib limit state ending stream got stream' got' event result := by
  induction hp : stream.pending generalizing stream got with
  | nil =>
    cases hd : demand limit got with
    | more wanted =>
      refine ⟨stream.peerClose, got, .failed ending, .error (.io ending), h.close stream got, ?_,
        hw, rfl, .ended hd hp, rfl, fun ⟨_, he⟩ => by cases he⟩
      simp only [readStep, hd, Duplex.peerClose, if_true]
    | tooLarge length => exact Reads.checked ending stream hw (by simp [hd])
    | complete => exact Reads.checked ending stream hw (by simp [hd])
  | cons b rest ih =>
    cases hd : demand limit got with
    | tooLarge length => exact Reads.checked ending stream hw (by simp [hd])
    | complete => exact Reads.checked ending stream hw (by simp [hd])
    | more wanted =>
      have hpos : 1 ≤ wanted := demand_more_pos hd
      have hreceive : stream.receive 1 = some ([b],
          { stream with consumed := stream.consumed ++ [b], pending := rest }) := by
        simp [Duplex.receive, hp]
      have hstep : readStep lib limit stream got (.bytes 1) =
          some (.more { stream with consumed := stream.consumed ++ [b], pending := rest }
            (got ++ [b])) := by
        simp only [readStep, hd, if_pos hpos, hreceive]
      obtain ⟨stream', got', event, result, hends⟩ :=
        ih { stream with consumed := stream.consumed ++ [b], pending := rest }
          (within_append hd (show [b].length ≤ wanted from hpos)) rfl
      refine ⟨stream', got', event, result, hends.reaches.after (h.more hstep), hends.last,
        hends.within, ?_, hends.finishes, hends.sent, hends.closed⟩
      have hbytes := hends.bytes
      rw [List.append_assoc] at hbytes
      rw [hp]
      exact hbytes

/-- The last call of a write: it hands over what is left. -/
structure WriteEnds (M : Machine σ ι ο) (capacity : ℕ) (state : Duplex → Bytes → σ)
    (stream : Duplex) (rest : Bytes) (stream' : Duplex) (rest' : Bytes) (stream'' : Duplex) :
    Prop where
  reaches : M.Reaches (state stream rest) [] (state stream' rest')
  last : writeStep capacity stream' rest' (.bytes 1) = some (.ok (stream'', []))
  sent : stream''.sent = stream.sent ++ rest
  pending : stream''.pending = stream.pending
  closed : stream''.closed = stream.closed

/-- After the peer has read everything there is room again. -/
theorem fetched_room (capacity : ℕ) (stream : Duplex) :
    (stream.peerRead stream.sent.length).room capacity = capacity := by
  simp only [Duplex.room, Duplex.peerRead]
  omega

/-- A write byte by byte to a peer that reads each of them. -/
theorem Writes.finish (h : Writes M capacity state) (hc : 0 < capacity) {stream : Duplex}
    {rest : Bytes} (hr : rest ≠ []) (ho : stream.closed = false) :
    ∃ stream' rest' stream'',
      WriteEnds M capacity state stream rest stream' rest' stream'' := by
  induction rest generalizing stream with
  | nil => exact absurd rfl hr
  | cons b rest ih =>
    have hstep : writeStep capacity (stream.peerRead stream.sent.length) (b :: rest) (.bytes 1) =
        some (.ok ({ stream.peerRead stream.sent.length with sent := stream.sent ++ [b] },
          rest)) := by
      have hroom := fetched_room capacity stream
      have hsend : (stream.peerRead stream.sent.length).send capacity (b :: rest) 1 =
          some { stream.peerRead stream.sent.length with sent := stream.sent ++ [b] } := by
        refine if_pos ⟨Nat.one_pos, ?_, ?_, ho⟩
        · rw [List.length_cons]
          omega
        · rw [hroom]
          exact hc
      simp only [writeStep, hsend, List.drop_one, List.tail_cons]
    cases rest with
    | nil =>
      exact ⟨_, _, _, h.fetch stream [b] _, hstep, rfl, rfl, rfl⟩
    | cons b' rest =>
      obtain ⟨stream', rest', stream'', hends⟩ := @ih
        { stream.peerRead stream.sent.length with sent := stream.sent ++ [b] } (by simp) ho
      refine ⟨stream', rest', stream'', ?_, hends.last, ?_, hends.pending, hends.closed⟩
      · apply Machine.Reaches.after _ (h.fetch stream (b :: b' :: rest) stream.sent.length)
        exact hends.reaches.after (h.more hstep (by simp))
      · rw [hends.sent, List.append_assoc, List.singleton_append]

end PersonaMessage.FrameSchedule
