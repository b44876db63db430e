import PersonaMessage.ByteStream

/-! Streams that arrive in pieces. One `read` call returns at most what is left of one piece,
and `read_exact` calls it until its buffer is full; what it returns and what it leaves
depend on the bytes only. -/
namespace PersonaMessage.ChunkStream
open ByteStream

/-- One `read` into a buffer with that much room; no bytes mean that the stream has ended. -/
def read (room : ℕ) : List Bytes → Bytes × List Bytes
  | [] => ([], [])
  | piece :: pieces =>
    if piece.length ≤ room then (piece, pieces)
    else (piece.take room, piece.drop room :: pieces)

/-- The loop of `read_exact`. -/
def fill (size : ℕ) (pieces : List Bytes) : Except IoError Bytes × List Bytes :=
  if size = 0 then (.ok [], pieces)
  else
    match read size pieces with
    | ([], rest) => (.error .unexpectedEof, rest)
    | (b :: got, rest) =>
      match fill (size-(b :: got).length) rest with
      | (.error e, rest) => (.error e, rest)
      | (.ok more, rest) => (.ok (b :: got ++ more), rest)
  termination_by size
  decreasing_by
    rw [List.length_cons]
    omega

/-- A piece without bytes would be taken for the end. -/
def Pieces (pieces : List Bytes) : Prop := ∀ piece ∈ pieces, piece ≠ []

theorem read_pieces {room : ℕ} {pieces : List Bytes} (h : Pieces pieces) :
    Pieces (read room pieces).2 := by
  cases pieces with
  | nil => exact h
  | cons piece pieces =>
    have htail : Pieces pieces := fun p hp => h p (List.mem_cons_of_mem _ hp)
    simp only [read]
    split_ifs with hr
    · exact htail
    · intro p hp
      rcases List.mem_cons.mp hp with rfl | hp
      · intro he
        have hl := congrArg List.length he
        rw [List.length_drop, List.length_nil] at hl
        omega
      · exact htail p hp

theorem read_flatten (room : ℕ) (pieces : List Bytes) :
    (read room pieces).1 ++ (read room pieces).2.flatten = pieces.flatten := by
  cases pieces with
  | nil => rfl
  | cons piece pieces =>
    simp only [read]
    split_ifs with hr
    · rfl
    · rw [List.flatten_cons, List.flatten_cons, ← List.append_assoc, List.take_append_drop]

theorem read_length (room : ℕ) (pieces : List Bytes) : (read room pieces).1.length ≤ room := by
  cases pieces with
  | nil => exact Nat.zero_le room
  | cons piece pieces =>
    simp only [read]
    split_ifs with hr
    · exact hr
    · exact List.length_take_le ..

/-- A `read` finds nothing only at the end. -/
theorem read_nil {room : ℕ} {pieces : List Bytes} (h : Pieces pieces) (hr : room ≠ 0)
    (hn : (read room pieces).1 = []) : pieces = [] := by
  cases pieces with
  | nil => rfl
  | cons piece pieces =>
    have hp : piece ≠ [] := h piece List.mem_cons_self
    simp only [read] at hn
    split_ifs at hn with hl
    · exact absurd hn hp
    · have hlen := congrArg List.length hn
      rw [List.length_take, List.length_nil] at hlen
      omega

/-- An exact read whose first bytes are there goes on with the bytes after them. -/
theorem readExact_prefix {size : ℕ} {got : Bytes} (h : got.length ≤ size) (rest : Bytes) :
    readExact size (got ++ rest) =
      match readExact (size-got.length) rest with
      | (.error e, rest) => (.error e, rest)
      | (.ok more, rest) => (.ok (got ++ more), rest) := by
  by_cases hs : size-got.length ≤ rest.length
  · have ht : size ≤ got.length+rest.length := by omega
    simp [readExact, hs, ht, List.take_append, List.drop_append, List.take_of_length_le h,
      List.drop_of_length_le h]
  · have ht : ¬ size ≤ got.length+rest.length := by omega
    simp [readExact, hs, ht]

/-- The loop does what one exact read of all the bytes does. -/
theorem fill_spec {size : ℕ} {pieces : List Bytes} (h : Pieces pieces) :
    Pieces (fill size pieces).2 ∧
      ((fill size pieces).1, (fill size pieces).2.flatten) = readExact size pieces.flatten := by
  fun_induction fill size pieces with
  | case1 pieces =>
    exact ⟨h, by simp [readExact]⟩
  | case2 size pieces hs rest he =>
    have hn := read_nil h hs (by rw [he])
    subst hn
    have hshort : ([] : List Bytes).flatten.length < size := by
      rw [List.flatten_nil, List.length_nil]
      omega
    obtain rfl : rest = [] := (Prod.mk.inj he).2.symm
    rw [readExact_short hshort]
    exact ⟨h, rfl⟩
  | case3 size pieces hs b got rest he e rest' hf ih =>
    have hp : Pieces (read size pieces).2 := read_pieces h
    have hb := read_flatten size pieces
    have hl := read_length size pieces
    rw [he] at hp hb hl
    obtain ⟨hrest, hread⟩ := ih hp
    rw [hf] at hrest hread
    rw [← hb, readExact_prefix hl, ← hread]
    exact ⟨hrest, rfl⟩
  | case4 size pieces hs b got rest he more rest' hf ih =>
    have hp : Pieces (read size pieces).2 := read_pieces h
    have hb := read_flatten size pieces
    have hl := read_length size pieces
    rw [he] at hp hb hl
    obtain ⟨hrest, hread⟩ := ih hp
    rw [hf] at hrest hread
    rw [← hb, readExact_prefix hl, ← hread]
    exact ⟨hrest, rfl⟩

/-- A stream cut into pieces. -/
structure Chunks where
  pieces : List Bytes
  nonempty : Pieces pieces

def Chunks.bytes (s : Chunks) : Bytes := s.pieces.flatten

/-- What a reader of frames uses of `Read`, with the bytes that a stream still holds. -/
structure Reader (σ : Type) where
  readExact : ℕ → σ → Except IoError Bytes × σ
  left : σ → Bytes
  exact (size : ℕ) (s : σ) :
    ((readExact size s).1, left (readExact size s).2) = ByteStream.readExact size (left s)

/-- A stream that is there as a whole. -/
def Reader.whole : Reader Bytes := ⟨ByteStream.readExact, id, fun _ _ => rfl⟩

def Reader.chunks : Reader Chunks where
  readExact size s := ((fill size s.pieces).1, ⟨(fill size s.pieces).2, (fill_spec s.nonempty).1⟩)
  left := Chunks.bytes
  exact _ s := (fill_spec s.nonempty).2

end PersonaMessage.ChunkStream
