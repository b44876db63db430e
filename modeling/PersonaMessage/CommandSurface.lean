import PersonaMessage.MessageContract
import PersonaMessage.NotaText

/-! The records of the command line in `src/command.rs` and `src/surface.rs`: their NOTA
texts, the requests they become and the replies they are made from. -/
namespace PersonaMessage.CommandSurface
open NotaCodec

structure RecipientName where
  text : String
  deriving DecidableEq

structure Send where
  recipient : RecipientName
  body : String
  deriving DecidableEq

structure Inbox where
  recipient : RecipientName
  deriving DecidableEq

inductive Input
  | send (send : Send)
  | inbox (inbox : Inbox)
  deriving DecidableEq

structure SubmissionAccepted where
  messageSlot : UInt64
  deriving DecidableEq

inductive SubmissionRejectionReason
  | storeRejected
  | recipientNotFound
  deriving DecidableEq

structure SubmissionRejected where
  reason : SubmissionRejectionReason
  deriving DecidableEq

structure RouterInboxEntry where
  messageSlot : UInt64
  sender : RecipientName
  body : String
  deriving DecidableEq

structure RouterInboxListing where
  messages : List RouterInboxEntry
  deriving DecidableEq

inductive Output
  | submissionAccepted (output : SubmissionAccepted)
  | submissionRejected (output : SubmissionRejected)
  | routerInboxListing (output : RouterInboxListing)
  | messageRequestUnimplemented (output : MessageRequestUnimplemented)
  deriving DecidableEq

/-- The library, and the codec that the contract crate derives for its own record. -/
structure SurfaceLibrary extends NotaLibrary where
  unimplemented : Codec MessageRequestUnimplemented
  unimplemented_lawful : unimplemented.Lawful writable
  unimplemented_encode {output : MessageRequestUnimplemented} {ts : List Token} :
    unimplemented.encode output = .ok ts →
      ∃ ts', ts = .lparen :: .ident "MessageRequestUnimplemented" :: ts'

variable (lib : SurfaceLibrary)

def RecipientName.codec : Codec RecipientName := lib.string.via (·.text) .mk

def Send.codec : Codec Send :=
  (lib.record "Send" ((RecipientName.codec lib).pair lib.string)).via
    (fun input => (input.recipient, input.body)) (fun p => ⟨p.1, p.2⟩)

def Inbox.codec : Codec Inbox :=
  (lib.record "Inbox" (RecipientName.codec lib)).via (·.recipient) .mk

def SubmissionAccepted.codec : Codec SubmissionAccepted :=
  (lib.record "SubmissionAccepted" lib.u64).via (·.messageSlot) .mk

def SubmissionRejectionReason.encode : SubmissionRejectionReason → Except NotaError (List Token)
  | .storeRejected => lib.string.encode "StoreRejected"
  | .recipientNotFound => lib.string.encode "RecipientNotFound"

def SubmissionRejectionReason.decode (d : Decoder) :
    Except NotaError (SubmissionRejectionReason × Decoder) := do
  let (text, d) ← lib.string.decode d
  match text with
  | "StoreRejected" => .ok (.storeRejected, d)
  | "RecipientNotFound" => .ok (.recipientNotFound, d)
  | other => .error (.unknownKindForVerb "SubmissionRejectionReason" other)

def SubmissionRejectionReason.codec : Codec SubmissionRejectionReason :=
  ⟨SubmissionRejectionReason.encode lib, SubmissionRejectionReason.decode lib⟩

def SubmissionRejected.codec : Codec SubmissionRejected :=
  (lib.record "SubmissionRejected" (SubmissionRejectionReason.codec lib)).via (·.reason) .mk

def RouterInboxEntry.codec : Codec RouterInboxEntry :=
  (lib.record "RouterInboxEntry"
    (lib.u64.pair ((RecipientName.codec lib).pair lib.string))).via
    (fun entry => (entry.messageSlot, entry.sender, entry.body)) (fun p => ⟨p.1, p.2.1, p.2.2⟩)

def RouterInboxListing.codec : Codec RouterInboxListing :=
  (lib.record "RouterInboxListing" (lib.vec (RouterInboxEntry.codec lib))).via (·.messages) .mk

def Input.encode : Input → Except NotaError (List Token)
  | .send input => (Send.codec lib).encode input
  | .inbox input => (Inbox.codec lib).encode input

def Input.decode (d : Decoder) : Except NotaError (Input × Decoder) := do
  let head ← lib.peekRecordHead d
  match head with
  | "Send" =>
    let (input, d) ← (Send.codec lib).decode d
    return (.send input, d)
  | "Inbox" =>
    let (input, d) ← (Inbox.codec lib).decode d
    return (.inbox input, d)
  | other => .error (.unknownKindForVerb "Input" other)

def Input.codec : Codec Input := ⟨Input.encode lib, Input.decode lib⟩

def Output.encode : Output → Except NotaError (List Token)
  | .submissionAccepted output => (SubmissionAccepted.codec lib).encode output
  | .submissionRejected output => (SubmissionRejected.codec lib).encode output
  | .routerInboxListing output => (RouterInboxListing.codec lib).encode output
  | .messageRequestUnimplemented output => lib.unimplemented.encode output

def Output.decode (d : Decoder) : Except NotaError (Output × Decoder) := do
  let head ← lib.peekRecordHead d
  match head with
  | "SubmissionAccepted" =>
    let (output, d) ← (SubmissionAccepted.codec lib).decode d
    return (.submissionAccepted output, d)
  | "SubmissionRejected" =>
    let (output, d) ← (SubmissionRejected.codec lib).decode d
    return (.submissionRejected output, d)
  | "RouterInboxListing" =>
    let (output, d) ← (RouterInboxListing.codec lib).decode d
    return (.routerInboxListing output, d)
  | "MessageRequestUnimplemented" =>
    let (output, d) ← lib.unimplemented.decode d
    return (.messageRequestUnimplemented output, d)
  | other => .error (.unknownKindForVerb "Output" other)

def Output.codec : Codec Output := ⟨Output.encode lib, Output.decode lib⟩

def expectEnd (d : Decoder) : Except NotaError Unit :=
  match d.peekToken with
  | .error e => .error e
  | .ok (some token) => .error (.unexpectedToken "end of input" token)
  | .ok none => .ok ()

/-- The body that `Input::from_nota` and `Output::from_nota` share. -/
def fromNota {α : Type} (c : Codec α) (text : String) : Result α :=
  match c.decode (lib.lex text) with
  | .error e => .error (.nota e)
  | .ok (a, d) =>
    match expectEnd d with
    | .error e => .error (.nota e)
    | .ok () => .ok a

def Input.fromNota (text : String) : Result Input :=
  CommandSurface.fromNota lib (Input.codec lib) text

def Output.fromNota (text : String) : Result Output :=
  CommandSurface.fromNota lib (Output.codec lib) text

def Output.toNota (output : Output) : Result String :=
  match Output.encode lib output with
  | .error e => .error (.nota e)
  | .ok ts => .ok (lib.render ts)

def Send.intoMessageRequest (input : Send) : MessageRequest :=
  .messageSubmission ⟨⟨input.recipient.text⟩, .send, ⟨input.body⟩⟩

def Inbox.intoMessageRequest (input : Inbox) : MessageRequest :=
  .inboxQuery ⟨⟨input.recipient.text⟩⟩

def Input.intoMessageRequest : Input → MessageRequest
  | .send input => input.intoMessageRequest
  | .inbox input => input.intoMessageRequest

def SubmissionRejectionReason.fromSignal :
    PersonaMessage.SubmissionRejectionReason → SubmissionRejectionReason
  | .storeRejected => .storeRejected
  | .recipientNotFound => .recipientNotFound

def RouterInboxEntry.fromSignal (entry : InboxEntry) : RouterInboxEntry :=
  ⟨entry.messageSlot.value, ⟨entry.sender.text⟩, entry.body.text⟩

def Output.fromRouterReply (reply : MessageReply) : Result Output :=
  match reply with
  | .submissionAccepted acceptance =>
    .ok (.submissionAccepted ⟨acceptance.messageSlot.value⟩)
  | .submissionRejected rejection =>
    .ok (.submissionRejected ⟨.fromSignal rejection.reason⟩)
  | .inboxListing listing =>
    .ok (.routerInboxListing ⟨listing.messages.map .fromSignal⟩)
  | .messageRequestUnimplemented unimplemented =>
    .ok (.messageRequestUnimplemented unimplemented)

variable {lib}

theorem RecipientName.codec_lawful : (RecipientName.codec lib).Lawful lib.writable :=
  lib.string_lawful.via fun _ => rfl

theorem Send.codec_lawful : (Send.codec lib).Lawful lib.writable :=
  (lib.record_lawful (by decide) (RecipientName.codec_lawful.pair lib.string_lawful)).via
    fun _ => rfl

theorem Inbox.codec_lawful : (Inbox.codec lib).Lawful lib.writable :=
  (lib.record_lawful (by decide) RecipientName.codec_lawful).via fun _ => rfl

theorem SubmissionAccepted.codec_lawful :
    (SubmissionAccepted.codec lib).Lawful lib.writable :=
  (lib.record_lawful (by decide) lib.u64_lawful).via fun _ => rfl

/-- The two names that stand for the reasons are told apart. -/
theorem SubmissionRejectionReason.codec_lawful :
    (SubmissionRejectionReason.codec lib).Lawful lib.writable where
  encode_ok reason := by
    cases reason with
    | storeRejected => exact lib.string_lawful.encode_ok _
    | recipientNotFound => exact lib.string_lawful.encode_ok _
  decode_encode {reason ts} h d := by
    cases reason with
    | storeRejected =>
      have hd := lib.string_lawful.decode_encode h d
      simp only [SubmissionRejectionReason.codec, SubmissionRejectionReason.decode, hd, bind,
        Except.bind]
    | recipientNotFound =>
      have hd := lib.string_lawful.decode_encode h d
      simp only [SubmissionRejectionReason.codec, SubmissionRejectionReason.decode, hd, bind,
        Except.bind]
  writable {reason ts} h := by
    cases reason with
    | storeRejected => exact lib.string_lawful.writable h
    | recipientNotFound => exact lib.string_lawful.writable h
  starts {reason ts} h := by
    cases reason with
    | storeRejected => exact lib.string_lawful.starts h
    | recipientNotFound => exact lib.string_lawful.starts h

theorem SubmissionRejected.codec_lawful :
    (SubmissionRejected.codec lib).Lawful lib.writable :=
  (lib.record_lawful (by decide) SubmissionRejectionReason.codec_lawful).via fun _ => rfl

theorem RouterInboxEntry.codec_lawful : (RouterInboxEntry.codec lib).Lawful lib.writable :=
  (lib.record_lawful (by decide) (lib.u64_lawful.pair
    (RecipientName.codec_lawful.pair lib.string_lawful))).via fun _ => rfl

theorem RouterInboxListing.codec_lawful :
    (RouterInboxListing.codec lib).Lawful lib.writable :=
  (lib.record_lawful (by decide) (lib.vec_lawful RouterInboxEntry.codec_lawful)).via fun _ => rfl

theorem peek_after {head : String} {ts ts' : List Token} (h : ts = .lparen :: .ident head :: ts')
    (d : Decoder) : lib.peekRecordHead (d.after ts) = .ok head := by
  subst h
  exact lib.peekRecordHead_record head _ _

/-- The head that a variant writes leads the decoder back to it. -/
theorem Input.codec_lawful : (Input.codec lib).Lawful lib.writable where
  encode_ok input := by
    cases input with
    | send input => exact Send.codec_lawful.encode_ok input
    | inbox input => exact Inbox.codec_lawful.encode_ok input
  decode_encode {input ts} h d := by
    cases input with
    | send input =>
      obtain ⟨ts', hts⟩ := lib.record_encode h
      have hd := Send.codec_lawful.decode_encode h d
      simp only [Input.codec, Input.decode, peek_after hts, hd, bind, Except.bind]
      rfl
    | inbox input =>
      obtain ⟨ts', hts⟩ := lib.record_encode h
      have hd := Inbox.codec_lawful.decode_encode h d
      simp only [Input.codec, Input.decode, peek_after hts, hd, bind, Except.bind]
      rfl
  writable {input ts} h := by
    cases input with
    | send input => exact Send.codec_lawful.writable h
    | inbox input => exact Inbox.codec_lawful.writable h
  starts {input ts} h := by
    cases input with
    | send input => exact Send.codec_lawful.starts h
    | inbox input => exact Inbox.codec_lawful.starts h

theorem Output.codec_lawful : (Output.codec lib).Lawful lib.writable where
  encode_ok output := by
    cases output with
    | submissionAccepted output => exact SubmissionAccepted.codec_lawful.encode_ok output
    | submissionRejected output => exact SubmissionRejected.codec_lawful.encode_ok output
    | routerInboxListing output => exact RouterInboxListing.codec_lawful.encode_ok output
    | messageRequestUnimplemented output => exact lib.unimplemented_lawful.encode_ok output
  decode_encode {output ts} h d := by
    cases output with
    | submissionAccepted output =>
      obtain ⟨ts', hts⟩ := lib.record_encode h
      have hd := SubmissionAccepted.codec_lawful.decode_encode h d
      simp only [Output.codec, Output.decode, peek_after hts, hd, bind, Except.bind]
      rfl
    | submissionRejected output =>
      obtain ⟨ts', hts⟩ := lib.record_encode h
      have hd := SubmissionRejected.codec_lawful.decode_encode h d
      simp only [Output.codec, Output.decode, peek_after hts, hd, bind, Except.bind]
      rfl
    | routerInboxListing output =>
      obtain ⟨ts', hts⟩ := lib.record_encode h
      have hd := RouterInboxListing.codec_lawful.decode_encode h d
      simp only [Output.codec, Output.decode, peek_after hts, hd, bind, Except.bind]
      rfl
    | messageRequestUnimplemented output =>
      obtain ⟨ts', hts⟩ := lib.unimplemented_encode h
      have hd := lib.unimplemented_lawful.decode_encode h d
      simp only [Output.codec, Output.decode, peek_after hts, hd, bind, Except.bind]
      rfl
  writable {output ts} h := by
    cases output with
    | submissionAccepted output => exact SubmissionAccepted.codec_lawful.writable h
    | submissionRejected output => exact SubmissionRejected.codec_lawful.writable h
    | routerInboxListing output => exact RouterInboxListing.codec_lawful.writable h
    | messageRequestUnimplemented output => exact lib.unimplemented_lawful.writable h
  starts {output ts} h := by
    cases output with
    | submissionAccepted output => exact SubmissionAccepted.codec_lawful.starts h
    | submissionRejected output => exact SubmissionRejected.codec_lawful.starts h
    | routerInboxListing output => exact RouterInboxListing.codec_lawful.starts h
    | messageRequestUnimplemented output => exact lib.unimplemented_lawful.starts h

/-- A text that holds one encoded value and blanks is decoded to that value. -/
theorem fromNota_render {α : Type} {c : Codec α} (hc : c.Lawful lib.writable) {a : α}
    {ts : List Token} (h : c.encode a = .ok ts) {blank : String}
    (hb : ∀ x ∈ blank.toList, x.isWhitespace) :
    CommandSurface.fromNota lib c (lib.render ts ++ blank) = .ok a := by
  have hlex : lib.lex (lib.render ts ++ blank) = (⟨[], none⟩ : Decoder).after ts := by
    rw [lib.lex_render (hc.writable h) hb, Decoder.after, List.append_nil]
  have hd := hc.decode_encode h ⟨[], none⟩
  simp only [CommandSurface.fromNota, hlex, hd]
  rfl

variable (lib) in
/-- An output has a text, and the text with any blanks after it is decoded to the output. -/
theorem Output.toNota_ok (output : Output) : ∃ text, output.toNota lib = .ok text ∧
    ∀ blank : String, (∀ x ∈ blank.toList, x.isWhitespace) →
      Output.fromNota lib (text ++ blank) = .ok output := by
  obtain ⟨ts, hts⟩ := Output.codec_lawful.encode_ok output
  have hencode : Output.encode lib output = .ok ts := hts
  refine ⟨lib.render ts, by simp only [Output.toNota, hencode], fun blank hb => ?_⟩
  exact fromNota_render Output.codec_lawful hts hb

/-- A token after the encoded value is one too many. -/
theorem fromNota_further {α : Type} {c : Codec α} (hc : c.Lawful lib.writable) {a : α}
    {ts more : List Token} {t : Token} {failure : Option NotaError} {text : String}
    (h : c.encode a = .ok ts) (ht : lib.lex text = ⟨ts ++ t :: more, failure⟩) :
    CommandSurface.fromNota lib c text =
      .error (.nota (.unexpectedToken "end of input" t)) := by
  have hlex : lib.lex text = (⟨t :: more, failure⟩ : Decoder).after ts := ht
  have hd := hc.decode_encode h ⟨t :: more, failure⟩
  simp only [CommandSurface.fromNota, hlex, hd]
  rfl

/-- The names of the variants, which are the heads of their records. -/
def Input.heads : List String := ["Send", "Inbox"]

def Output.heads : List String :=
  ["SubmissionAccepted", "SubmissionRejected", "RouterInboxListing",
    "MessageRequestUnimplemented"]

theorem Input.decode_foreign {d : Decoder} {head : String}
    (h : lib.peekRecordHead d = .ok head) (hh : head ∉ Input.heads) :
    Input.decode lib d = .error (.unknownKindForVerb "Input" head) := by
  simp only [Input.heads, List.mem_cons, List.not_mem_nil, or_false, not_or] at hh
  simp only [Input.decode, h, bind, Except.bind]
  split
  · exact absurd rfl hh.1
  · exact absurd rfl hh.2
  · rfl

theorem Output.decode_foreign {d : Decoder} {head : String}
    (h : lib.peekRecordHead d = .ok head) (hh : head ∉ Output.heads) :
    Output.decode lib d = .error (.unknownKindForVerb "Output" head) := by
  simp only [Output.heads, List.mem_cons, List.not_mem_nil, or_false, not_or] at hh
  simp only [Output.decode, h, bind, Except.bind]
  split
  · exact absurd rfl hh.1
  · exact absurd rfl hh.2.1
  · exact absurd rfl hh.2.2.1
  · exact absurd rfl hh.2.2.2
  · rfl

theorem SubmissionRejectionReason.fromSignal_injective :
    Function.Injective SubmissionRejectionReason.fromSignal := by
  intro a b h
  cases a <;> cases b <;> first | rfl | cases h

theorem RouterInboxEntry.fromSignal_injective :
    Function.Injective RouterInboxEntry.fromSignal := by
  rintro ⟨⟨slot⟩, ⟨sender⟩, ⟨body⟩⟩ ⟨⟨slot'⟩, ⟨sender'⟩, ⟨body'⟩⟩ h
  simp only [RouterInboxEntry.fromSignal, RouterInboxEntry.mk.injEq, RecipientName.mk.injEq] at h
  obtain ⟨rfl, rfl, rfl⟩ := h
  rfl

/-- A reply can be told from the output that shows it. -/
theorem Output.fromRouterReply_injective : Function.Injective Output.fromRouterReply := by
  intro a b h
  cases a with
  | submissionAccepted acceptance =>
    cases b with
    | submissionAccepted acceptance' =>
      obtain ⟨⟨slot⟩⟩ := acceptance
      obtain ⟨⟨slot'⟩⟩ := acceptance'
      obtain rfl : slot = slot' := by simpa [Output.fromRouterReply] using h
      rfl
    | _ => simp [Output.fromRouterReply] at h
  | submissionRejected rejection =>
    cases b with
    | submissionRejected rejection' =>
      obtain ⟨reason⟩ := rejection
      obtain ⟨reason'⟩ := rejection'
      obtain rfl : reason = reason' := SubmissionRejectionReason.fromSignal_injective
        (by simpa [Output.fromRouterReply] using h)
      rfl
    | _ => simp [Output.fromRouterReply] at h
  | inboxListing listing =>
    cases b with
    | inboxListing listing' =>
      obtain ⟨messages⟩ := listing
      obtain ⟨messages'⟩ := listing'
      obtain rfl : messages = messages' := RouterInboxEntry.fromSignal_injective.list_map
        (by simpa [Output.fromRouterReply] using h)
      rfl
    | _ => simp [Output.fromRouterReply] at h
  | messageRequestUnimplemented unimplemented =>
    cases b with
    | messageRequestUnimplemented unimplemented' =>
      obtain rfl : unimplemented = unimplemented' := by simpa [Output.fromRouterReply] using h
      rfl
    | _ => simp [Output.fromRouterReply] at h

variable (lib) in
/-- The text that `Input::run` prints for a reply, without its line end. -/
def replyText (reply : MessageReply) : Result String :=
  match Output.fromRouterReply reply with
  | .error e => .error e
  | .ok output => output.toNota lib

variable (lib) in
theorem replyText_decoded (reply : MessageReply) : ∃ output text,
    Output.fromRouterReply reply = .ok output ∧ replyText lib reply = .ok text ∧
      Output.fromNota lib text = .ok output := by
  obtain ⟨output, houtput⟩ : ∃ output, Output.fromRouterReply reply = .ok output := by
    cases reply <;> exact ⟨_, rfl⟩
  obtain ⟨text, htext, hdecoded⟩ := Output.toNota_ok lib output
  refine ⟨output, text, houtput, by simp only [replyText, houtput, htext], ?_⟩
  simpa using hdecoded "" (by simp)

/-- Two replies with one text would be decoded to one output. -/
theorem replyText_injective {a b : MessageReply} (h : replyText lib a = replyText lib b) :
    a = b := by
  obtain ⟨output, text, ha, hta, hda⟩ := replyText_decoded lib a
  obtain ⟨output', text', hb, htb, hdb⟩ := replyText_decoded lib b
  rw [hta, htb] at h
  obtain rfl := Except.ok.inj h
  rw [hda] at hdb
  obtain rfl := Except.ok.inj hdb
  exact Output.fromRouterReply_injective (ha.trans hb.symm)

/-- The texts of a type with this name and these record heads: each value has one, which is
decoded to it whatever blanks follow, and neither a further token nor a foreign head is
accepted. -/
structure TextsExactly (lib : SurfaceLibrary) {α : Type} (name : String) (heads : List String)
    (c : Codec α) (fromNota : String → Result α) : Prop where
  decoded (a : α) : ∃ ts, c.encode a = .ok ts ∧
    ∀ blank : String, (∀ x ∈ blank.toList, x.isWhitespace) →
      fromNota (lib.render ts ++ blank) = .ok a
  further (a : α) (ts more : List Token) (t : Token) (failure : Option NotaError)
    (text : String) : c.encode a = .ok ts → lib.lex text = ⟨ts ++ t :: more, failure⟩ →
      fromNota text = .error (.nota (.unexpectedToken "end of input" t))
  foreign (head : String) (ts : List Token) (failure : Option NotaError) (text : String) :
    head ∉ heads → lib.lex text = ⟨.lparen :: .ident head :: ts, failure⟩ →
      fromNota text = .error (.nota (.unknownKindForVerb name head))

theorem textsExactly {α : Type} {c : Codec α} (hc : c.Lawful lib.writable)
    {heads : List String} {name : String}
    (hf : ∀ {d : Decoder} {head : String}, lib.peekRecordHead d = .ok head → head ∉ heads →
      c.decode d = .error (.unknownKindForVerb name head)) :
    TextsExactly lib name heads c (CommandSurface.fromNota lib c) where
  decoded a := by
    obtain ⟨ts, hts⟩ := hc.encode_ok a
    exact ⟨ts, hts, fun blank hb => fromNota_render hc hts hb⟩
  further _ _ _ _ _ _ hts ht := fromNota_further hc hts ht
  foreign head ts failure text hh ht := by
    have hp : lib.peekRecordHead (lib.lex text) = .ok head := by
      rw [ht]
      exact lib.peekRecordHead_record head ts failure
    simp only [CommandSurface.fromNota, hf hp hh]

/-- The surface loses nothing, and accepts nothing but the texts of its records. -/
theorem surface_exact (lib : SurfaceLibrary) :
    TextsExactly lib "Output" Output.heads (Output.codec lib) (Output.fromNota lib) ∧
    TextsExactly lib "Input" Input.heads (Input.codec lib) (Input.fromNota lib) ∧
    (∀ output ts, Output.encode lib output = .ok ts → output.toNota lib = .ok (lib.render ts)) ∧
    ∀ a b : MessageReply, a ≠ b → ∃ text text', replyText lib a = .ok text ∧
      replyText lib b = .ok text' ∧ text ≠ text' := by
  refine ⟨textsExactly Output.codec_lawful Output.decode_foreign,
    textsExactly Input.codec_lawful Input.decode_foreign, fun output ts h => ?_,
    fun a b hne => ?_⟩
  · simp only [Output.toNota, h]
  · obtain ⟨_, text, _, ha, _⟩ := replyText_decoded lib a
    obtain ⟨_, text', _, hb, _⟩ := replyText_decoded lib b
    refine ⟨text, text', ha, hb, ?_⟩
    rintro rfl
    exact hne (replyText_injective (ha.trans hb.symm))

/-! The surface over the texts of `NotaText`. The contract's own record is not spelled as there:
its remaining constructors are counted. -/

def operationCodec : Codec MessageOperationKind :=
  (NotaText.vec NotaText.string).via
    (fun
      | .stampedMessageSubmission => []
      | .other tag => List.replicate (tag+1) "Other")
    (fun names =>
      match names.length with
      | 0 => .stampedMessageSubmission
      | tag+1 => .other tag)

def reasonCodec : Codec MessageUnimplementedReason :=
  (NotaText.vec NotaText.string).via
    (fun
      | .notInPrototypeScope => []
      | .other tag => List.replicate (tag+1) "Other")
    (fun names =>
      match names.length with
      | 0 => .notInPrototypeScope
      | tag+1 => .other tag)

def unimplementedCodec : Codec MessageRequestUnimplemented :=
  (NotaText.record "MessageRequestUnimplemented" (operationCodec.pair reasonCodec)).via
    (fun output => (output.operation, output.reason)) (fun p => ⟨p.1, p.2⟩)

theorem operationCodec_lawful : operationCodec.Lawful NotaText.writable := by
  refine (NotaText.vec_lawful NotaText.string_lawful).via fun operation => ?_
  cases operation with
  | stampedMessageSubmission => rfl
  | other tag => simp

theorem reasonCodec_lawful : reasonCodec.Lawful NotaText.writable := by
  refine (NotaText.vec_lawful NotaText.string_lawful).via fun reason => ?_
  cases reason with
  | notInPrototypeScope => rfl
  | other tag => simp

def textLibrary : SurfaceLibrary where
  toNotaLibrary := NotaText.notaText
  unimplemented := unimplementedCodec
  unimplemented_lawful := (NotaText.record_lawful (by decide)
    (operationCodec_lawful.pair reasonCodec_lawful)).via fun _ => rfl
  unimplemented_encode h := NotaText.notaText.record_encode h

example : Output.toNota textLibrary (.submissionAccepted ⟨7⟩) = .ok "(SubmissionAccepted 7)" :=
  rfl

end PersonaMessage.CommandSurface
