import Mathlib

/-! Byte streams, exact reads and length-prefixed frames. A blocking reader sees the
bytes in pieces, so a frame is also described by what it still demands of its peer;
the two views are proved to agree. -/
namespace PersonaMessage.ByteStream

abbrev Bytes := List UInt8

inductive IoError
  | unexpectedEof
  | wouldBlock
  | brokenPipe
  | connectionRefused
  | notFound
  | invalidData (detail : String)
  | other (kind : String)
  deriving DecidableEq

def fromBeBytes (bytes : Bytes) : ℕ := bytes.foldl (fun n b => 256*n+b.toNat) 0

def toBeBytes (n : ℕ) : Bytes :=
  [UInt8.ofNat (n/2^24), UInt8.ofNat (n/2^16), UInt8.ofNat (n/2^8), UInt8.ofNat n]

@[simp] theorem toBeBytes_length (n : ℕ) : (toBeBytes n).length = 4 := rfl

theorem fromBeBytes_toBeBytes {n : ℕ} (h : n < 2^32) : fromBeBytes (toBeBytes n) = n := by
  simp only [fromBeBytes, toBeBytes, List.foldl_cons, List.foldl_nil, UInt8.toNat_ofNat']
  omega

/-- Fill a buffer of the given size from a stream that ends after its bytes. A stream that
is too short has been consumed when the error is known. -/
def readExact (size : ℕ) (stream : Bytes) : Except IoError Bytes × Bytes :=
  if size ≤ stream.length then (.ok (stream.take size), stream.drop size)
  else (.error .unexpectedEof, [])

theorem readExact_append {size : ℕ} {got : Bytes} (h : got.length = size) (rest : Bytes) :
    readExact size (got ++ rest) = (.ok got, rest) := by
  subst h
  simp [readExact]

theorem readExact_short {size : ℕ} {stream : Bytes} (h : stream.length < size) :
    readExact size stream = (.error .unexpectedEof, []) := by
  simp [readExact, Nat.not_le.mpr h]

theorem readExact_ok {size : ℕ} {stream got rest : Bytes}
    (h : readExact size stream = (.ok got, rest)) : stream = got ++ rest ∧ got.length = size := by
  unfold readExact at h
  split_ifs at h with hs
  · obtain ⟨hg, rfl⟩ := Prod.mk.inj h
    obtain rfl := Except.ok.inj hg
    exact ⟨(List.take_append_drop _ _).symm, by simp [hs]⟩
  · simp at h

/-- What a reader of one length-prefixed frame still needs, given what it has read. -/
inductive Demand
  | more (wanted : ℕ)
  | tooLarge (length : ℕ)
  | complete
  deriving DecidableEq

def demand (limit : ℕ) (got : Bytes) : Demand :=
  if got.length < 4 then .more (4-got.length)
  else if limit < fromBeBytes (got.take 4) then .tooLarge (fromBeBytes (got.take 4))
  else if got.length < 4+fromBeBytes (got.take 4) then
    .more (4+fromBeBytes (got.take 4)-got.length)
  else .complete

theorem demand_more_pos {limit wanted : ℕ} {got : Bytes}
    (h : demand limit got = .more wanted) : 0 < wanted := by
  unfold demand at h
  split_ifs at h with h4 hl hb
  all_goals
    obtain rfl := Demand.more.inj h
    omega

/-- A reader that never asked for more than its demand has not read past its frame. -/
def Within (limit : ℕ) (got : Bytes) : Prop :=
  got.length ≤ 4 ∨
    fromBeBytes (got.take 4) ≤ limit ∧ got.length ≤ 4+fromBeBytes (got.take 4)

theorem within_nil (limit : ℕ) : Within limit [] := Or.inl (Nat.zero_le 4)

theorem within_append {limit wanted : ℕ} {got chunk : Bytes}
    (hd : demand limit got = .more wanted) (hc : chunk.length ≤ wanted) :
    Within limit (got ++ chunk) := by
  unfold demand at hd
  split_ifs at hd with h4 hl hb
  · obtain rfl := Demand.more.inj hd
    exact Or.inl (by rw [List.length_append]; omega)
  · obtain rfl := Demand.more.inj hd
    refine Or.inr ?_
    rw [List.take_append_of_le_length (by omega), List.length_append]
    omega

theorem Within.complete_length {limit : ℕ} {got : Bytes} (hw : Within limit got)
    (hd : demand limit got = .complete) :
    4 ≤ got.length ∧ fromBeBytes (got.take 4) ≤ limit ∧
      got.length = 4+fromBeBytes (got.take 4) := by
  unfold demand at hd
  split_ifs at hd with h4 hl hb
  refine ⟨by omega, by omega, ?_⟩
  rcases hw with hw | hw <;> omega

theorem Within.tooLarge_length {limit length : ℕ} {got : Bytes} (hw : Within limit got)
    (hd : demand limit got = .tooLarge length) :
    got.length = 4 ∧ length = fromBeBytes got ∧ limit < length := by
  unfold demand at hd
  split_ifs at hd with h4 hl hb
  obtain rfl := Demand.tooLarge.inj hd
  have hg : got.length = 4 := by rcases hw with hw | hw <;> omega
  rw [List.take_of_length_le (by omega)] at hl ⊢
  exact ⟨hg, rfl, hl⟩

/-- Short of a frame: the prefix is missing bytes, or it is admissible and the body is. -/
theorem demand_more_cases {limit wanted : ℕ} {got : Bytes}
    (h : demand limit got = .more wanted) :
    got.length < 4 ∨ 4 ≤ got.length ∧ fromBeBytes (got.take 4) ≤ limit ∧
      got.length < 4+fromBeBytes (got.take 4) := by
  unfold demand at h
  split_ifs at h with h4 hl hb
  · exact Or.inl h4
  · exact Or.inr ⟨by omega, by omega, hb⟩

/-- One end of a connected stream. What was read here and what was written here stay in
the record, so the history of both directions is visible. -/
structure Duplex where
  consumed : Bytes
  pending : Bytes
  sent : Bytes
  fetched : ℕ
  closed : Bool
  deriving DecidableEq

namespace Duplex

def fresh : Duplex := ⟨[], [], [], 0, false⟩

/-- Everything the peer has written so far. -/
def arrived (d : Duplex) : Bytes := d.consumed ++ d.pending

/-- Room left for this end in a buffer of the given capacity. -/
def room (capacity : ℕ) (d : Duplex) : ℕ := capacity-(d.sent.length-d.fetched)

def peerWrite (d : Duplex) (bytes : Bytes) : Duplex := { d with pending := d.pending ++ bytes }

def peerRead (d : Duplex) (count : ℕ) : Duplex :=
  { d with fetched := min d.sent.length (d.fetched+count) }

def peerClose (d : Duplex) : Duplex := { d with closed := true }

/-- One `read` call: it returns at least one byte, and never more than there are. -/
def receive (d : Duplex) (count : ℕ) : Option (Bytes × Duplex) :=
  if 0 < count ∧ count ≤ d.pending.length then
    some (d.pending.take count,
      { d with consumed := d.consumed ++ d.pending.take count, pending := d.pending.drop count })
  else none

/-- One `write` call of at least one byte, as far as the buffer has room. -/
def send (capacity : ℕ) (d : Duplex) (bytes : Bytes) (count : ℕ) : Option Duplex :=
  if 0 < count ∧ count ≤ bytes.length ∧ count ≤ d.room capacity ∧ d.closed = false then
    some { d with sent := d.sent ++ bytes.take count }
  else none

/-- End of file is seen once the peer has closed and everything has been read. -/
def AtEnd (d : Duplex) : Prop := d.pending = [] ∧ d.closed = true

instance (d : Duplex) : Decidable d.AtEnd := inferInstanceAs (Decidable (_ ∧ _))

/-- A read would wait for the peer. -/
def Silent (d : Duplex) : Prop := d.pending = [] ∧ d.closed = false

instance (d : Duplex) : Decidable d.Silent := inferInstanceAs (Decidable (_ ∧ _))

/-- A write would wait for the peer to read. -/
def Full (capacity : ℕ) (d : Duplex) : Prop := d.room capacity = 0 ∧ d.closed = false

instance (capacity : ℕ) (d : Duplex) : Decidable (d.Full capacity) :=
  inferInstanceAs (Decidable (_ ∧ _))

theorem receive_spec {d e : Duplex} {count : ℕ} {chunk : Bytes}
    (h : d.receive count = some (chunk, e)) :
    chunk.length = count ∧ e.consumed = d.consumed ++ chunk ∧ e.sent = d.sent ∧
      e.closed = d.closed := by
  unfold receive at h
  split_ifs at h with hc
  obtain ⟨rfl, rfl⟩ := Prod.mk.inj (Option.some.inj h)
  exact ⟨by simp [hc.2], rfl, rfl, rfl⟩

/-- A read of a stream with a pending byte goes through. -/
theorem receive_one {d : Duplex} (h : d.pending ≠ []) :
    ∃ chunk e, d.receive 1 = some (chunk, e) := by
  have hl := List.length_pos_iff.mpr h
  exact ⟨_, _, if_pos ⟨Nat.one_pos, hl⟩⟩

theorem send_spec {capacity : ℕ} {d e : Duplex} {bytes : Bytes} {count : ℕ}
    (h : d.send capacity bytes count = some e) :
    e.sent ++ bytes.drop count = d.sent ++ bytes ∧ e.consumed = d.consumed := by
  unfold send at h
  split_ifs at h with hc
  obtain rfl := Option.some.inj h
  exact ⟨by simp, rfl⟩

theorem send_closed {capacity : ℕ} {d e : Duplex} {bytes : Bytes} {count : ℕ}
    (h : d.send capacity bytes count = some e) : e.closed = d.closed := by
  unfold send at h
  split_ifs at h with hc
  obtain rfl := Option.some.inj h
  rfl

/-- A write into a buffer with room goes through. -/
theorem send_one {capacity : ℕ} {d : Duplex} {bytes : Bytes} (hb : bytes ≠ [])
    (hr : d.room capacity ≠ 0) (ho : d.closed = false) :
    ∃ e, d.send capacity bytes 1 = some e := by
  have hl := List.length_pos_iff.mpr hb
  exact ⟨_, if_pos ⟨Nat.one_pos, hl, by omega, ho⟩⟩

theorem send_room {capacity : ℕ} {d e : Duplex} {bytes : Bytes} {count : ℕ}
    (h : d.send capacity bytes count = some e) : bytes ≠ [] ∧ d.room capacity ≠ 0 := by
  unfold send at h
  split_ifs at h with hc
  exact ⟨List.length_pos_iff.mp (by omega), by omega⟩

end Duplex
end PersonaMessage.ByteStream
