import PersonaMessage.SignalFrames

/-! A blocking thread in the middle of reading or writing one frame. Each event is one
system call with the amount it moved, or the check that ends the read. -/
namespace PersonaMessage.FrameProgress
open ByteStream SignalFrames

/-- Why a frame was not read, before a codec turns it into an error of its own. -/
inductive FrameFault
  | io (error : IoError)
  | tooLarge (length : ℕ)
  | undecodable (error : FrameError)
  deriving DecidableEq

/-- A failed call is one on a stream whose peer has gone. -/
inductive ReadEvent
  | bytes (count : ℕ)
  | ended
  | failed (error : IoError)
  | check
  deriving DecidableEq

inductive WriteEvent
  | bytes (count : ℕ)
  | broken (error : IoError)
  deriving DecidableEq

inductive Reading (Q R : Type)
  | more (stream : Duplex) (got : Bytes)
  | done (result : Except FrameFault (Frame Q R))

variable {Q R : Type}

/-- `read_exact` of the length, the comparison with the limit, `read_exact` of the body and
the decoder, over the bytes read so far. -/
def readStep (lib : SignalLibrary Q R) (limit : ℕ) (stream : Duplex) (got : Bytes)
    (event : ReadEvent) : Option (Reading Q R) :=
  match demand limit got, event with
  | .more wanted, .bytes count =>
    if count ≤ wanted then
      match stream.receive count with
      | some (chunk, stream) => some (.more stream (got ++ chunk))
      | none => none
    else none
  | .more _, .ended => if stream.AtEnd then some (.done (.error (.io .unexpectedEof))) else none
  | .more _, .failed e => if stream.closed then some (.done (.error (.io e))) else none
  | .tooLarge length, .check => some (.done (.error (.tooLarge length)))
  | .complete, .check =>
    match lib.decodeLengthPrefixed got with
    | .ok frame => some (.done (.ok frame))
    | .error e => some (.done (.error (.undecodable e)))
  | _, _ => none

/-- `write_all` of what is left of a frame. -/
def writeStep (capacity : ℕ) (stream : Duplex) (rest : Bytes) (event : WriteEvent) :
    Option (Except IoError (Duplex × Bytes)) :=
  match event with
  | .bytes count =>
    match stream.send capacity rest count with
    | some stream => some (.ok (stream, rest.drop count))
    | none => none
  | .broken e => if stream.closed then some (.error e) else none

/-- The read waits for its peer. -/
def ReadWaits (limit : ℕ) (stream : Duplex) (got : Bytes) : Prop :=
  (∃ wanted, demand limit got = .more wanted) ∧ stream.Silent

variable {lib : SignalLibrary Q R} {limit : ℕ}

theorem readStep_more {stream stream' : Duplex} {got got' : Bytes} {event : ReadEvent}
    (h : readStep lib limit stream got event = some (.more stream' got')) :
    ∃ chunk, stream'.consumed = stream.consumed ++ chunk ∧ got' = got ++ chunk ∧
      stream'.sent = stream.sent ∧ stream'.closed = stream.closed ∧ Within limit got' := by
  unfold readStep at h
  split at h
  · next wanted count hd =>
    split_ifs at h with hc
    split at h
    · next chunk s hr =>
      obtain ⟨rfl, rfl⟩ := Reading.more.inj (Option.some.inj h)
      obtain ⟨hl, hcons, hs, hclosed⟩ := Duplex.receive_spec hr
      exact ⟨chunk, hcons, rfl, hs, hclosed, within_append hd (by omega)⟩
    · cases h
  · split_ifs at h
    simp at h
  · split_ifs at h
    simp at h
  · simp at h
  · split at h <;> simp at h
  · cases h

theorem readStep_ok {stream : Duplex} {got : Bytes} {event : ReadEvent} {frame : Frame Q R}
    (h : readStep lib limit stream got event = some (.done (.ok frame))) :
    demand limit got = .complete ∧ lib.decodeLengthPrefixed got = .ok frame := by
  unfold readStep at h
  split at h
  · split_ifs at h
    split at h <;> simp at h
  · split_ifs at h
    simp at h
  · split_ifs at h
    simp at h
  · simp at h
  · next hd =>
    split at h
    · next f hf =>
      simp only [Option.some.injEq, Reading.done.injEq, Except.ok.injEq] at h
      exact ⟨hd, h ▸ hf⟩
    · simp at h
  · cases h

/-- A reader that does not wait for its peer can go on. -/
theorem readStep_enabled_iff (lib : SignalLibrary Q R) (stream : Duplex) (got : Bytes) :
    (∃ event, readStep lib limit stream got event ≠ none) ↔ ¬ ReadWaits limit stream got := by
  constructor
  · rintro ⟨event, h⟩ ⟨⟨wanted, hd⟩, hp, hc⟩
    cases event with
    | bytes count =>
      have hr : stream.receive count = none := by
        rw [Duplex.receive, hp]
        exact if_neg (by rw [List.length_nil]; omega)
      simp [readStep, hd, hr] at h
    | ended => simp [readStep, hd, Duplex.AtEnd, hc] at h
    | failed e => simp [readStep, hd, hc] at h
    | check => simp [readStep, hd] at h
  · intro h
    cases hd : demand limit got with
    | more wanted =>
      by_cases hp : stream.pending = []
      · have hc : stream.closed = true := by
          by_contra hc
          exact h ⟨⟨wanted, hd⟩, hp, by simpa using hc⟩
        exact ⟨.ended, by simp [readStep, hd, Duplex.AtEnd, hp, hc]⟩
      · obtain ⟨chunk, next, hr⟩ := Duplex.receive_one hp
        have hw : 1 ≤ wanted := demand_more_pos hd
        exact ⟨.bytes 1, by simp [readStep, hd, hr, hw]⟩
    | tooLarge length => exact ⟨.check, by simp [readStep, hd]⟩
    | complete =>
      refine ⟨.check, ?_⟩
      cases hf : lib.decodeLengthPrefixed got <;> simp [readStep, hd, hf]

theorem writeStep_ok {capacity : ℕ} {stream stream' : Duplex} {rest rest' : Bytes}
    {event : WriteEvent} (h : writeStep capacity stream rest event = some (.ok (stream', rest'))) :
    stream'.sent ++ rest' = stream.sent ++ rest ∧ stream'.consumed = stream.consumed := by
  unfold writeStep at h
  split at h
  · split at h
    · next count s hs =>
      simp only [Option.some.injEq, Except.ok.injEq, Prod.mk.injEq] at h
      obtain ⟨rfl, rfl⟩ := h
      exact Duplex.send_spec hs
    · cases h
  · split_ifs at h
    simp at h

theorem writeStep_closed {capacity : ℕ} {stream stream' : Duplex} {rest rest' : Bytes}
    {event : WriteEvent} (h : writeStep capacity stream rest event = some (.ok (stream', rest'))) :
    stream'.closed = stream.closed := by
  unfold writeStep at h
  split at h
  · split at h
    · next count s hs =>
      simp only [Option.some.injEq, Except.ok.injEq, Prod.mk.injEq] at h
      obtain ⟨rfl, rfl⟩ := h
      exact Duplex.send_closed hs
    · cases h
  · split_ifs at h
    simp at h

/-- A write fails only when the peer has gone. -/
theorem writeStep_error {capacity : ℕ} {stream : Duplex} {rest : Bytes} {event : WriteEvent}
    {e : IoError} (h : writeStep capacity stream rest event = some (.error e)) :
    stream.closed = true := by
  unfold writeStep at h
  split at h
  · split at h <;> simp at h
  · split_ifs at h with hc
    exact hc

/-- A writer with something left can go on unless it waits for room. -/
theorem writeStep_enabled_iff {capacity : ℕ} {stream : Duplex} {rest : Bytes} (hr : rest ≠ []) :
    (∃ event, writeStep capacity stream rest event ≠ none) ↔ ¬ stream.Full capacity := by
  constructor
  · rintro ⟨event, h⟩ ⟨hroom, hc⟩
    cases event with
    | bytes count =>
      cases hs : stream.send capacity rest count with
      | none => simp [writeStep, hs] at h
      | some next => exact (Duplex.send_room hs).2 hroom
    | broken e => simp [writeStep, hc] at h
  · intro h
    by_cases hc : stream.closed = true
    · exact ⟨.broken .brokenPipe, by simp [writeStep, hc]⟩
    · have hc' : stream.closed = false := by simpa using hc
      have hroom : stream.room capacity ≠ 0 := fun he => h ⟨he, hc'⟩
      obtain ⟨next, hs⟩ := Duplex.send_one hr hroom hc'
      exact ⟨.bytes 1, by simp [writeStep, hs]⟩

/-- A read that goes on has got at least one byte more. -/
theorem readStep_longer {stream stream' : Duplex} {got got' : Bytes} {event : ReadEvent}
    (h : readStep lib limit stream got event = some (.more stream' got')) :
    got.length < got'.length := by
  unfold readStep at h
  split at h
  · split_ifs at h
    split at h
    · next chunk s hr =>
      obtain ⟨rfl, rfl⟩ := Reading.more.inj (Option.some.inj h)
      unfold Duplex.receive at hr
      split_ifs at hr with hc
      obtain ⟨rfl, rfl⟩ := Prod.mk.inj (Option.some.inj hr)
      rw [List.length_append, List.length_take]
      omega
    · cases h
  · split_ifs at h
    simp at h
  · split_ifs at h
    simp at h
  · simp at h
  · split at h <;> simp at h
  · cases h

/-- A write that goes through has at least one byte less to go. -/
theorem writeStep_shorter {capacity : ℕ} {stream stream' : Duplex} {rest rest' : Bytes}
    {event : WriteEvent} (h : writeStep capacity stream rest event = some (.ok (stream', rest'))) :
    rest'.length < rest.length := by
  unfold writeStep at h
  split at h
  · split at h
    · next count s hs =>
      simp only [Option.some.injEq, Except.ok.injEq, Prod.mk.injEq] at h
      obtain ⟨rfl, rfl⟩ := h
      unfold Duplex.send at hs
      split_ifs at hs with hc
      rw [List.length_drop]
      omega
    · cases h
  · split_ifs at h
    simp at h

/-- What is left of a write is what has not gone out. -/
theorem writeStep_chunk {capacity : ℕ} {stream stream' : Duplex} {rest rest' : Bytes}
    {event : WriteEvent} (h : writeStep capacity stream rest event = some (.ok (stream', rest'))) :
    ∃ chunk, rest = chunk ++ rest' ∧ stream'.sent = stream.sent ++ chunk := by
  have hl := writeStep_shorter h
  rcases List.append_eq_append_iff.mp (writeStep_ok h).1 with ⟨a, _, hr⟩ | ⟨chunk, hs, hr⟩
  · rw [hr, List.length_append] at hl
    omega
  · exact ⟨chunk, hr, hs⟩

end PersonaMessage.FrameProgress
