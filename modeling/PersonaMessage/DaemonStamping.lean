import PersonaMessage.MessageContract

/-! Provenance in `src/daemon.rs`: the authority of a listener, the peer's credentials and
the stamp that the daemon root puts on a submission. -/
namespace PersonaMessage.DaemonStamping

structure PeerCredentials where
  userId : UnixUserId
  deriving DecidableEq

inductive MessageIngressAuthority
  | externalPeer
  | internalComponentInstance (origin : InternalComponentInstanceOrigin)
  deriving DecidableEq

def MessageIngressAuthority.originForPeer (authority : MessageIngressAuthority)
    (ownerIdentity : OwnerIdentity) (peer : PeerCredentials) : MessageOrigin :=
  match authority with
  | .externalPeer =>
    match ownerIdentity with
    | .unixUser userId =>
      if peer.userId = userId then .external .owner
      else .external (.nonOwnerUser peer.userId)
    | .other _ => .external (.nonOwnerUser peer.userId)
  | .internalComponentInstance origin => .internalComponentInstance origin

structure MessageIngressContext where
  authority : MessageIngressAuthority
  peer : PeerCredentials
  deriving DecidableEq

def MessageIngressContext.origin (ingress : MessageIngressContext)
    (ownerIdentity : OwnerIdentity) : MessageOrigin :=
  ingress.authority.originForPeer ownerIdentity ingress.peer

inductive ForwardDecision
  | forward (request : MessageRequest)
  | reply (reply : MessageReply)
  deriving DecidableEq

/-- `u64::saturating_add`. -/
def saturatingAdd (a b : UInt64) : UInt64 :=
  if a.toNat+b.toNat < 2^64 then a+b else UInt64.ofNat (2^64-1)

theorem saturatingAdd_toNat (a b : UInt64) :
    (saturatingAdd a b).toNat = min (2^64-1) (a.toNat+b.toNat) := by
  unfold saturatingAdd
  split_ifs with h
  · rw [UInt64.toNat_add, Nat.mod_eq_of_lt h]
    omega
  · rw [UInt64.toNat_ofNat']
    omega

/-- The root actor. The router behind its socket is an argument of what it does. -/
structure MessageDaemonRoot where
  ownerIdentity : OwnerIdentity
  forwardedCount : UInt64
  deriving DecidableEq

namespace MessageDaemonRoot

def new (ownerIdentity : OwnerIdentity) : MessageDaemonRoot := ⟨ownerIdentity, 0⟩

/-- The clock is read in nanoseconds relative to the Unix epoch. -/
def timestampNow (now : ℤ) : Result TimestampNanos :=
  if now < 0 then .error .clockBeforeUnixEpoch
  else .ok ⟨UInt64.ofNat (min now.toNat (2^64-1))⟩

def notInPrototypeScope : MessageReply :=
  .messageRequestUnimplemented ⟨.stampedMessageSubmission, .notInPrototypeScope⟩

def stampRequest (root : MessageDaemonRoot) (request : MessageRequest)
    (ingress : MessageIngressContext) (now : ℤ) : Result ForwardDecision :=
  match request with
  | .messageSubmission submission =>
    match timestampNow now with
    | .error e => .error e
    | .ok stampedAt => .ok (.forward (.stampedMessageSubmission
        ⟨submission, ingress.origin root.ownerIdentity, stampedAt⟩))
  | .stampedMessageSubmission _ => .ok (.reply notInPrototypeScope)
  | .inboxQuery query => .ok (.forward (.inboxQuery query))

/-- One more submission that the router answered. -/
def countForward (root : MessageDaemonRoot) : MessageDaemonRoot :=
  { root with forwardedCount := saturatingAdd root.forwardedCount 1 }

theorem countForward_toNat {root : MessageDaemonRoot} {n : ℕ}
    (h : root.forwardedCount.toNat = min (2^64-1) n) :
    root.countForward.forwardedCount.toNat = min (2^64-1) (n+1) := by
  have hone : (1 : UInt64).toNat = 1 := rfl
  rw [countForward, saturatingAdd_toNat, h, hone]
  omega

end MessageDaemonRoot

theorem originForPeer_internal_iff (authority : MessageIngressAuthority)
    (owner : OwnerIdentity) (peer : PeerCredentials)
    (origin : InternalComponentInstanceOrigin) :
    authority.originForPeer owner peer = .internalComponentInstance origin ↔
      authority = .internalComponentInstance origin := by
  cases authority with
  | internalComponentInstance o => simp [MessageIngressAuthority.originForPeer]
  | externalPeer =>
    cases owner with
    | other tag => simp [MessageIngressAuthority.originForPeer]
    | unixUser userId =>
      simp only [MessageIngressAuthority.originForPeer]
      split_ifs <;> simp

theorem originForPeer_owner_iff (authority : MessageIngressAuthority)
    (owner : OwnerIdentity) (peer : PeerCredentials) :
    authority.originForPeer owner peer = .external .owner ↔
      authority = .externalPeer ∧ owner = .unixUser peer.userId := by
  cases authority with
  | internalComponentInstance o => simp [MessageIngressAuthority.originForPeer]
  | externalPeer =>
    cases owner with
    | other tag => simp [MessageIngressAuthority.originForPeer]
    | unixUser userId =>
      simp only [MessageIngressAuthority.originForPeer]
      split_ifs with h
      · simp [h]
      · simp only [MessageOrigin.external.injEq, reduceCtorEq, OwnerIdentity.unixUser.injEq,
          true_and, false_iff]
        exact fun he => h he.symm

/-- The external origins: the owner, and otherwise the peer's own user. -/
theorem originForPeer_external (owner : OwnerIdentity) (peer : PeerCredentials) :
    MessageIngressAuthority.externalPeer.originForPeer owner peer =
      if owner = .unixUser peer.userId then .external .owner
      else .external (.nonOwnerUser peer.userId) := by
  cases owner with
  | other tag => simp [MessageIngressAuthority.originForPeer]
  | unixUser userId =>
    by_cases h : peer.userId = userId
    · simp [MessageIngressAuthority.originForPeer, h]
    · have hn : ¬ userId = peer.userId := fun he => h he.symm
      simp [MessageIngressAuthority.originForPeer, h, hn]

/-- Under one owner the origin of an external peer determines its user. -/
theorem originForPeer_external_inj (owner : OwnerIdentity) (p q : PeerCredentials) :
    MessageIngressAuthority.externalPeer.originForPeer owner p =
      MessageIngressAuthority.externalPeer.originForPeer owner q ↔ p.userId = q.userId := by
  constructor
  · intro h
    rw [originForPeer_external, originForPeer_external] at h
    split_ifs at h with hp hq hq
    · exact OwnerIdentity.unixUser.inj (hp.symm.trans hq)
    · cases h
    · cases h
    · exact ConnectionClass.nonOwnerUser.inj (MessageOrigin.external.inj h)
  · intro h
    rw [originForPeer_external, originForPeer_external, h]

/-- What may be forwarded for a request that was read on an ingress: an inbox query as it
is, and a submission under the stamp of that ingress. -/
inductive StampedImage (owner : OwnerIdentity) (ingress : MessageIngressContext) :
    MessageRequest → MessageRequest → Prop
  | inboxQuery (query : InboxQuery) :
      StampedImage owner ingress (.inboxQuery query) (.inboxQuery query)
  | submission (submission : MessageSubmission) (stampedAt : TimestampNanos) :
      StampedImage owner ingress (.messageSubmission submission)
        (.stampedMessageSubmission ⟨submission, ingress.origin owner, stampedAt⟩)

open MessageDaemonRoot in
/-- Every decision of the root: forward the image, or answer a stamped one locally. -/
theorem stampRequest_ok {root : MessageDaemonRoot} {request : MessageRequest}
    {ingress : MessageIngressContext} {now : ℤ} {decision : ForwardDecision}
    (h : root.stampRequest request ingress now = .ok decision) :
    (∃ image, decision = .forward image ∧
      StampedImage root.ownerIdentity ingress request image) ∨
    (∃ stamped, request = .stampedMessageSubmission stamped ∧
      decision = .reply notInPrototypeScope) := by
  cases request with
  | messageSubmission submission =>
    simp only [stampRequest] at h
    cases ht : timestampNow now with
    | error e => simp [ht] at h
    | ok stampedAt =>
      simp only [ht, Except.ok.injEq] at h
      exact Or.inl ⟨_, h.symm, .submission submission stampedAt⟩
  | stampedMessageSubmission stamped =>
    exact Or.inr ⟨stamped, rfl, (Except.ok.inj h).symm⟩
  | inboxQuery query =>
    exact Or.inl ⟨_, (Except.ok.inj h).symm, .inboxQuery query⟩

/-- The stamp does not depend on what was forwarded before. -/
theorem stampRequest_root {root other : MessageDaemonRoot}
    (h : root.ownerIdentity = other.ownerIdentity) (request : MessageRequest)
    (ingress : MessageIngressContext) (now : ℤ) :
    root.stampRequest request ingress now = other.stampRequest request ingress now := by
  cases request <;> simp only [MessageDaemonRoot.stampRequest, h]

/-- Nothing is forwarded for a submission that arrives already stamped. -/
theorem StampedImage.not_stamped {owner : OwnerIdentity} {ingress : MessageIngressContext}
    {stamped : StampedMessageSubmission} {image : MessageRequest} :
    ¬ StampedImage owner ingress (.stampedMessageSubmission stamped) image := nofun

/-- No raw submission is forwarded. -/
theorem StampedImage.not_raw {owner : OwnerIdentity} {ingress : MessageIngressContext}
    {request : MessageRequest} {submission : MessageSubmission} :
    ¬ StampedImage owner ingress request (.messageSubmission submission) := nofun

end PersonaMessage.DaemonStamping
