import PersonaMessage.MessageContract

/-! A library that knows a finite table of frames. It meets every documented behaviour, so
the parameter of the development can be instantiated and its definitions evaluated. -/
namespace PersonaMessage.TableLibrary
open ByteStream SignalFrames

variable {Q R : Type}

def mismatch (verbOf : Q → SignalVerb) (op : Operation Q) : Bool :=
  decide (op.verb ≠ verbOf op.payload)

def check (verbOf : Q → SignalVerb) (r : Request Q) :
    Except (RequestRejectionReason × Request Q) (CheckedRequest Q) :=
  match r.operations.toList.findIdx? (mismatch verbOf) with
  | some i => .error (.verbPayloadMismatch i, r)
  | none => .ok ⟨r.operations⟩

theorem check_iff (verbOf : Q → SignalVerb) (r : Request Q) :
    (∃ c, check verbOf r = .ok c) ↔
      ∀ op ∈ r.operations.toList, op.verb = verbOf op.payload := by
  unfold check
  cases h : r.operations.toList.findIdx? (mismatch verbOf) with
  | none =>
    have hn := List.findIdx?_eq_none_iff.mp h
    refine ⟨fun _ op hop => ?_, fun _ => ⟨_, rfl⟩⟩
    simpa [mismatch] using hn op hop
  | some i =>
    obtain ⟨hi, hm, _⟩ := List.findIdx?_eq_some_iff_getElem.mp h
    refine ⟨fun ⟨c, hc⟩ => by simp at hc, fun hall => ?_⟩
    simp [mismatch, hall _ (List.getElem_mem hi)] at hm

theorem check_mismatch {verbOf : Q → SignalVerb} {r rejected : Request Q}
    {reason : RequestRejectionReason} (h : check verbOf r = .error (reason, rejected)) :
    ∃ i op, r.operations.toList[i]? = some op ∧ op.verb ≠ verbOf op.payload ∧
      (∀ op' ∈ r.operations.toList.take i, op'.verb = verbOf op'.payload) ∧
      reason = .verbPayloadMismatch i := by
  unfold check at h
  cases hf : r.operations.toList.findIdx? (mismatch verbOf) with
  | none => simp [hf] at h
  | some i =>
    obtain ⟨hi, hm, hlt⟩ := List.findIdx?_eq_some_iff_getElem.mp hf
    simp only [hf, Except.error.injEq, Prod.mk.injEq] at h
    refine ⟨i, _, List.getElem?_eq_getElem hi, by simpa [mismatch] using hm, ?_, h.1.symm⟩
    intro op' hop
    obtain ⟨j, hj, rfl⟩ := List.mem_take_iff_getElem.mp hop
    simpa [mismatch] using hlt j (by omega)

/-- The frame at index `i` has a body of `i` zero bytes. -/
def frameBytes (i : ℕ) : Bytes := toBeBytes i ++ List.replicate i 0

def decode (table : List (Frame Q R)) (bytes : Bytes) : Except FrameError (Frame Q R) :=
  let i := bytes.length-4
  if bytes = frameBytes i then
    match table[i]? with
    | some frame => .ok frame
    | none => .error ⟨"unknown body"⟩
  else .error ⟨"malformed body"⟩

theorem decode_mem {table : List (Frame Q R)} {bytes : Bytes} {frame : Frame Q R}
    (h : decode table bytes = .ok frame) : frame ∈ table := by
  unfold decode at h
  dsimp only at h
  split_ifs at h
  split at h
  · next f hf =>
    obtain rfl := Except.ok.inj h
    exact List.mem_of_getElem? hf
  · cases h

variable [DecidableEq Q] [DecidableEq R]

def encode (table : List (Frame Q R)) (frame : Frame Q R) : Except FrameError Bytes :=
  let i := table.idxOf frame
  if i < table.length ∧ i < 2^32 then .ok (frameBytes i) else .error ⟨"unknown frame"⟩

theorem decode_encode {table : List (Frame Q R)} {frame : Frame Q R} {bytes : Bytes}
    (h : encode table frame = .ok bytes) : decode table bytes = .ok frame := by
  unfold encode at h
  dsimp only at h
  split_ifs at h with hi
  obtain rfl := Except.ok.inj h
  have hl : (frameBytes (table.idxOf frame)).length-4 = table.idxOf frame := by
    simp [frameBytes]
  have hg : table[table.idxOf frame]? = some frame := by
    rw [List.getElem?_eq_getElem hi.1, List.getElem_idxOf]
  simp only [decode, hl, if_true, hg]

def tableLibrary (verbOf : Q → SignalVerb) (table : List (Frame Q R)) : SignalLibrary Q R where
  signalVerb := verbOf
  fromPayload q := ⟨.single ⟨verbOf q, q⟩⟩
  intoChecked := check verbOf
  encodeLengthPrefixed := encode table
  decodeLengthPrefixed := decode table
  debugBody _ := "body"
  debugExchange _ := "exchange"
  debugSubReply _ := "sub-reply"
  debugReason _ := "reason"
  displayReason _ := "reason"
  fromPayload_operations _ := rfl
  intoChecked_operations {r c} h := by
    unfold check at h
    split at h
    · cases h
    · obtain rfl := Except.ok.inj h
      rfl
  intoChecked_iff := check_iff verbOf
  intoChecked_mismatch := check_mismatch
  encode_framed {frame bytes} h := by
    unfold encode at h
    dsimp only at h
    split_ifs at h with hi
    obtain rfl := Except.ok.inj h
    exact ⟨List.replicate (table.idxOf frame) 0, by simpa using hi.2, by simp [frameBytes]⟩
  decode_encode := decode_encode

def verbOf : MessageRequest → SignalVerb
  | .inboxQuery _ => ⟨"Match"⟩
  | _ => ⟨"Assert"⟩

def messageLibrary (table : List MessageFrame) : MessageLibrary := tableLibrary verbOf table

end PersonaMessage.TableLibrary
