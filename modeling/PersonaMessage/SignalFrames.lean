import PersonaMessage.ByteStream

/-! The frame vocabulary of the linked `signal_core` library. Its code is outside the
repository: the constructors are those the daemon builds or matches, `other` stands for
the ones it only prints, and the library's functions are a parameter that carries their
documented behaviour. -/
namespace PersonaMessage.SignalFrames
open ByteStream

structure NonEmpty (α : Type) where
  head : α
  tail : List α
  deriving DecidableEq

def NonEmpty.single {α : Type} (a : α) : NonEmpty α := ⟨a, []⟩

def NonEmpty.intoHeadAndTail {α : Type} (xs : NonEmpty α) : α × List α := (xs.head, xs.tail)

def NonEmpty.toList {α : Type} (xs : NonEmpty α) : List α := xs.head :: xs.tail

structure SignalVerb where
  name : String
  deriving DecidableEq

structure SessionEpoch where
  value : ℕ
  deriving DecidableEq

inductive ExchangeLane
  | connector
  | other (tag : ℕ)
  deriving DecidableEq

inductive LaneSequence
  | first
  | later (index : ℕ)
  deriving DecidableEq

structure ExchangeIdentifier where
  sessionEpoch : SessionEpoch
  lane : ExchangeLane
  laneSequence : LaneSequence
  deriving DecidableEq

structure Operation (Q : Type) where
  verb : SignalVerb
  payload : Q
  deriving DecidableEq

structure Request (Q : Type) where
  operations : NonEmpty (Operation Q)
  deriving DecidableEq

/-- A request whose verbs have been compared with its payloads. -/
structure CheckedRequest (Q : Type) where
  operations : NonEmpty (Operation Q)
  deriving DecidableEq

inductive RequestRejectionReason
  | verbPayloadMismatch (index : ℕ)
  | other (tag : ℕ)
  deriving DecidableEq

inductive SubReply (R : Type)
  | ok (verb : SignalVerb) (payload : R)
  | other (tag : ℕ)
  deriving DecidableEq

inductive AcceptedOutcome
  | completed
  | other (tag : ℕ)
  deriving DecidableEq

inductive Reply (R : Type)
  | accepted (outcome : AcceptedOutcome) (perOperation : NonEmpty (SubReply R))
  | rejected (reason : RequestRejectionReason)
  deriving DecidableEq

def Reply.completed {R : Type} (perOperation : NonEmpty (SubReply R)) : Reply R :=
  .accepted .completed perOperation

inductive FrameBody (Q R : Type)
  | request (exchange : ExchangeIdentifier) (request : Request Q)
  | reply (exchange : ExchangeIdentifier) (reply : Reply R)
  | other (tag : ℕ)
  deriving DecidableEq

structure Frame (Q R : Type) where
  body : FrameBody Q R
  deriving DecidableEq

def Frame.intoBody {Q R : Type} (frame : Frame Q R) : FrameBody Q R := frame.body

/-- The text is what the library's `Display` prints. -/
structure FrameError where
  detail : String
  deriving DecidableEq

/-- The library as linked for one relation with request payloads `Q` and reply payloads `R`. -/
structure SignalLibrary (Q R : Type) where
  signalVerb : Q → SignalVerb
  fromPayload : Q → Request Q
  intoChecked : Request Q → Except (RequestRejectionReason × Request Q) (CheckedRequest Q)
  encodeLengthPrefixed : Frame Q R → Except FrameError Bytes
  decodeLengthPrefixed : Bytes → Except FrameError (Frame Q R)
  debugBody : FrameBody Q R → String
  debugExchange : ExchangeIdentifier → String
  debugSubReply : SubReply R → String
  debugReason : RequestRejectionReason → String
  displayReason : RequestRejectionReason → String
  fromPayload_operations (q : Q) :
    (fromPayload q).operations = NonEmpty.single ⟨signalVerb q, q⟩
  intoChecked_operations {r : Request Q} {c : CheckedRequest Q} :
    intoChecked r = .ok c → c.operations = r.operations
  intoChecked_iff (r : Request Q) :
    (∃ c, intoChecked r = .ok c) ↔
      ∀ op ∈ r.operations.toList, op.verb = signalVerb op.payload
  intoChecked_mismatch {r rejected : Request Q} {reason : RequestRejectionReason} :
    intoChecked r = .error (reason, rejected) →
      ∃ i op, r.operations.toList[i]? = some op ∧ op.verb ≠ signalVerb op.payload ∧
        (∀ op' ∈ r.operations.toList.take i, op'.verb = signalVerb op'.payload) ∧
        reason = .verbPayloadMismatch i
  encode_framed {frame : Frame Q R} {bytes : Bytes} :
    encodeLengthPrefixed frame = .ok bytes →
      ∃ body : Bytes, body.length < 2^32 ∧ bytes = toBeBytes body.length ++ body
  decode_encode {frame : Frame Q R} {bytes : Bytes} :
    encodeLengthPrefixed frame = .ok bytes → decodeLengthPrefixed bytes = .ok frame

variable {Q R : Type} (lib : SignalLibrary Q R)

/-- A request of one operation passes the check exactly under the verb of its payload. -/
theorem SignalLibrary.intoChecked_single_iff {r : Request Q} {op : Operation Q} :
    (∃ c, lib.intoChecked r = .ok c ∧ c.operations = .single op) ↔
      r.operations = .single op ∧ op.verb = lib.signalVerb op.payload := by
  constructor
  · rintro ⟨c, hc, hops⟩
    have ho : r.operations = .single op := (lib.intoChecked_operations hc).symm.trans hops
    have hall := (lib.intoChecked_iff r).mp ⟨c, hc⟩
    exact ⟨ho, hall op (by simp [ho, NonEmpty.toList, NonEmpty.single])⟩
  · rintro ⟨ho, hv⟩
    have hall : ∀ op ∈ r.operations.toList, op.verb = lib.signalVerb op.payload := by
      rw [ho]
      intro op hop
      obtain rfl := List.mem_singleton.mp hop
      exact hv
    obtain ⟨c, hc⟩ := (lib.intoChecked_iff r).mpr hall
    exact ⟨c, hc, (lib.intoChecked_operations hc).trans ho⟩

theorem NonEmpty.single_head {α : Type} {xs : NonEmpty α} (h : xs.tail = []) :
    xs = .single xs.head := by
  obtain ⟨head, tail⟩ := xs
  obtain rfl : tail = [] := h
  rfl

theorem SignalLibrary.encode_ne_nil {frame : Frame Q R} {bytes : Bytes}
    (h : lib.encodeLengthPrefixed frame = .ok bytes) : bytes ≠ [] := by
  obtain ⟨body, _, rfl⟩ := lib.encode_framed h
  simp [toBeBytes]

end PersonaMessage.SignalFrames
