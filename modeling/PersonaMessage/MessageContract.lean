import PersonaMessage.SignalFrames
import PersonaMessage.NotaCodec

/-! The records of the message relation and of its provenance types, as far as the daemon
and the command line build, match or compare them, and the error type of the crate. -/
namespace PersonaMessage
open ByteStream SignalFrames NotaCodec

structure UnixUserId where
  value : UInt32
  deriving DecidableEq

structure InternalComponentInstanceOrigin where
  component : String
  instanceName : String
  deriving DecidableEq

inductive OwnerIdentity
  | unixUser (userId : UnixUserId)
  | other (tag : ℕ)
  deriving DecidableEq

inductive ConnectionClass
  | owner
  | nonOwnerUser (userId : UnixUserId)
  | other (tag : ℕ)
  deriving DecidableEq

inductive MessageOrigin
  | external (connectionClass : ConnectionClass)
  | internalComponentInstance (origin : InternalComponentInstanceOrigin)
  | other (tag : ℕ)
  deriving DecidableEq

structure TimestampNanos where
  value : UInt64
  deriving DecidableEq

structure MessageRecipient where
  text : String
  deriving DecidableEq

structure MessageSender where
  text : String
  deriving DecidableEq

structure MessageBody where
  text : String
  deriving DecidableEq

structure MessageSlot where
  value : UInt64
  deriving DecidableEq

inductive MessageKind
  | send
  | other (tag : ℕ)
  deriving DecidableEq

structure MessageSubmission where
  recipient : MessageRecipient
  kind : MessageKind
  body : MessageBody
  deriving DecidableEq

structure StampedMessageSubmission where
  submission : MessageSubmission
  origin : MessageOrigin
  stampedAt : TimestampNanos
  deriving DecidableEq

structure InboxQuery where
  recipient : MessageRecipient
  deriving DecidableEq

inductive MessageRequest
  | messageSubmission (submission : MessageSubmission)
  | stampedMessageSubmission (stamped : StampedMessageSubmission)
  | inboxQuery (query : InboxQuery)
  deriving DecidableEq

structure SubmissionAcceptance where
  messageSlot : MessageSlot
  deriving DecidableEq

inductive SubmissionRejectionReason
  | storeRejected
  | recipientNotFound
  deriving DecidableEq

structure SubmissionRejection where
  reason : SubmissionRejectionReason
  deriving DecidableEq

structure InboxEntry where
  messageSlot : MessageSlot
  sender : MessageSender
  body : MessageBody
  deriving DecidableEq

structure InboxListing where
  messages : List InboxEntry
  deriving DecidableEq

inductive MessageOperationKind
  | stampedMessageSubmission
  | other (tag : ℕ)
  deriving DecidableEq

inductive MessageUnimplementedReason
  | notInPrototypeScope
  | other (tag : ℕ)
  deriving DecidableEq

structure MessageRequestUnimplemented where
  operation : MessageOperationKind
  reason : MessageUnimplementedReason
  deriving DecidableEq

inductive MessageReply
  | submissionAccepted (acceptance : SubmissionAcceptance)
  | submissionRejected (rejection : SubmissionRejection)
  | inboxListing (listing : InboxListing)
  | messageRequestUnimplemented (unimplemented : MessageRequestUnimplemented)
  deriving DecidableEq

abbrev MessageFrame := Frame MessageRequest MessageReply
abbrev MessageLibrary := SignalLibrary MessageRequest MessageReply

/-- `src/error.rs`; the configuration variant belongs to the argument decoder of the
daemon binary, which is not modelled. -/
inductive Error
  | io (error : IoError)
  | nota (error : NotaError)
  | signalFrame (error : FrameError)
  | invalidInlineNotaArgument (got : String)
  | missingInput
  | unexpectedArgument (got : String)
  | invalidValidatorArgument (detail : String)
  | outputValidation (detail : String)
  | signalMessageSocketMissing
  | daemonFrameTooLarge (bytes : ℕ)
  | unexpectedRouterReply (got : String)
  | unexpectedDaemonInput (got : String)
  | invalidSignalRequest (reason : RequestRejectionReason)
  | peerCredentials
  | clockBeforeUnixEpoch
  | actor (operation detail : String)
  deriving DecidableEq

abbrev Result (α : Type) := Except Error α

end PersonaMessage
