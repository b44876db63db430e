import PersonaMessage.EndToEnd
import PersonaMessage.IngressProvenance
import PersonaMessage.OutputValidator

/-! Commands that run at the same time against one daemon, from the records that they are given to
what the output validator makes of the records that they print. -/
namespace PersonaMessage.CommandPipeline
open ByteStream SignalFrames RouterCodec SignalRouterFrameCodec DaemonStamping DaemonConnection
  Transitions CommandSurface CommandRun OutputValidator
open IngressMachine (Deployment Ingress ConnId Action Inv FirstFrame OriginFor routerWriting
  RouterListener Event machine initial inv_run)
open EndToEnd (Fits Requested Projected)

/-- A command for this record has written its request on the connection. -/
structure Speaks (d : Deployment) (s : Ingress) (c : ConnId) (input : Input) (request : Bytes) :
    Prop where
  fits : Fits d.lib (requestFrameWithExchange d.lib connectorExchange input.intoMessageRequest)
    request
  written : request <+: (s.connections c).stream.arrived

/-- What was done for the record before this reply went out: the router was given the request
that the record asks for, under the caller's identity, and gave this reply to it. -/
structure Attended (d : Deployment) (log : List Action) (c : ConnId) (input : Input)
    (wire : Bytes) (reply : MessageReply) : Prop where
  forwarded : ∃ image bytes answer, Requested input image ∧
    Answered d.lib (routerWriting answer) image bytes reply ∧
    Precedes log (.forwarded c bytes) (.answered c answer) ∧
    Precedes log (.answered c answer) (.replied c wire) ∧
    ∃ listener peer, .connected c listener peer ∈ log ∧
      ∀ stamped, image = .stampedMessageSubmission stamped →
        OriginFor d listener peer stamped.origin

/-- What the router's reply has to be for the validator to be content. -/
def Answers (reply : MessageReply) : OutputExpectation → Prop
  | .submissionAccepted => ∃ acceptance, reply = .submissionAccepted acceptance
  | .inboxEntryPresent sender body => ∃ listing, reply = .inboxListing listing ∧
    ∃ entry ∈ listing.messages, entry.body.text = body ∧
      ∀ expected, sender = some expected → entry.sender.text = expected.text
  | .inboxBodyAbsent body => ∃ listing, reply = .inboxListing listing ∧
    ∀ entry ∈ listing.messages, entry.body.text ≠ body

variable {nota : SurfaceLibrary} {d : Deployment} {log : List Action} {s : Ingress} {c : ConnId}
  {input : Input} {request wire : Bytes} {reply : MessageReply} {output : Output}

/-- The daemon reads the command's request and nothing else. -/
theorem Speaks.firstFrame (h : Speaks d s c input request) :
    FirstFrame d s c
      ⟨connectorExchange, d.lib.signalVerb input.intoMessageRequest, input.intoMessageRequest⟩ := by
  obtain ⟨rest, hrest⟩ := h.written
  exact ⟨request, rest, hrest.symm, EndToEnd.readRequest_fits h.fits⟩

/-- A command never sends a stamped submission. -/
theorem intoMessageRequest_not_stamped (input : Input) (stamped : StampedMessageSubmission) :
    input.intoMessageRequest ≠ .stampedMessageSubmission stamped := by
  cases input <;> simp [Input.intoMessageRequest, Send.intoMessageRequest,
    Inbox.intoMessageRequest]

theorem stampedImage_requested {owner : OwnerIdentity} {ingress : MessageIngressContext}
    {image : MessageRequest} (h : StampedImage owner ingress input.intoMessageRequest image) :
    Requested input image := by
  cases input with
  | send input =>
    cases h with
    | submission submission stampedAt => exact .send ..
  | inbox input =>
    cases h with
    | inboxQuery query => exact .inbox _

/-- The stamp of an image names the listener's authority and the peer. -/
theorem stampedImage_origin {authority : MessageIngressAuthority} {listener : ℕ}
    {peer : PeerCredentials} {asked image : MessageRequest}
    (hb : d.bindings[listener]? = some authority)
    (h : StampedImage d.ownerIdentity ⟨authority, peer⟩ asked image)
    {stamped : StampedMessageSubmission} (hi : image = .stampedMessageSubmission stamped) :
    OriginFor d listener peer stamped.origin := by
  cases h with
  | submission submission stampedAt =>
    obtain rfl := MessageRequest.stampedMessageSubmission.inj hi
    exact IngressMachine.originFor_of_authority hb
  | inboxQuery query => cases hi

/-- A command that was replied to was attended to. -/
theorem command_attended (hi : Inv d log s) (hs : Speaks d s c input request)
    (h : .replied c wire ∈ log) :
    ∃ reply, Attended d log c input wire reply ∧
      writeReply d.lib ⟨connectorExchange, d.lib.signalVerb input.intoMessageRequest,
        input.intoMessageRequest⟩ reply = .ok wire := by
  obtain ⟨_, received, reply, hfirst, hwrite, hfor⟩ := IngressMachine.replied_for hi h
  obtain rfl := hs.firstFrame.unique hfirst
  refine ⟨reply, ?_, hwrite⟩
  cases hfor with
  | fromRoot hstamped => exact absurd hstamped (intoMessageRequest_not_stamped input _)
  | @fromRouter image bytes answer exchanged sent returned =>
    obtain ⟨received', listener, peer, authority, image', hfirst', hconnected, hb, himage, hw⟩ :=
      IngressMachine.forwarded_image hi sent.mem_left
    obtain rfl := hs.firstFrame.unique hfirst'
    have hcarries : IngressMachine.Carries d bytes image := exchanged.encoded
    obtain rfl := hcarries.unique hw
    exact ⟨image, bytes, answer, stampedImage_requested himage, exchanged, sent, returned,
      listener, peer, hconnected, fun stamped => stampedImage_origin hb himage⟩

/-- The command as it runs against a daemon that writes this reply. -/
theorem command_printed {env : Environment} {socket : OsString}
    (hsocket : env.messageSocket = some socket) (hconnect : env.connect socket = routerWriting wire)
    (hfits : Fits d.lib (requestFrameWithExchange d.lib connectorExchange input.intoMessageRequest)
      request)
    (hwrite : writeReply d.lib ⟨connectorExchange, d.lib.signalVerb input.intoMessageRequest,
      input.intoMessageRequest⟩ reply = .ok wire)
    (hwire : wire.length ≤ 4+SignalRouterFrameCodec.default.maximumFrameBytes) :
    ∃ text output, Input.run nota d.lib input env none = ⟨some request, text, .ok ()⟩ ∧
      Output.fromNota nota text = .ok output ∧ Projected reply output := by
  have hanswered : Answered d.lib (routerWriting wire) input.intoMessageRequest request reply := by
    refine ⟨rfl, by simp only [writeFrame, hfits.1], rfl, _, ?_,
      replyFromFrameForExchange_replyFrame connectorExchange
        (d.lib.signalVerb input.intoMessageRequest) reply⟩
    have hread := readFrame_encoded (writeFrame_ok hwrite) hwire
    simp only [routerWriting, hread]
  obtain ⟨output, houtput, hprojected⟩ := EndToEnd.fromRouterReply_projected reply
  obtain ⟨text, htext, hdecoded⟩ := Output.toNota_ok nota output
  have hblank : ∀ x ∈ "\n".toList, x.isWhitespace := by
    intro x hx
    obtain rfl : x = '\n' := by simpa using hx
    rfl
  have hsubmit : SignalMessageClient.submit d.lib (routerWriting wire) input.intoMessageRequest =
      ⟨some request, .ok reply⟩ := hanswered.submitTo
  refine ⟨text ++ "\n", output, ?_, hdecoded "\n" hblank, hprojected⟩
  simp only [Input.run, hsocket, hconnect, hsubmit, houtput, htext]

/-- Entries that correspond are found together. -/
theorem exists_mem_iff_of_forall₂ {α β : Type*} {R : α → β → Prop} {p : α → Prop} {q : β → Prop}
    {as : List α} {bs : List β} (h : List.Forall₂ R as bs) (hpq : ∀ a b, R a b → (p a ↔ q b)) :
    (∃ a ∈ as, p a) ↔ ∃ b ∈ bs, q b := by
  induction h with
  | nil => simp
  | cons hab _ ih => simp only [List.exists_mem_cons_iff, hpq _ _ hab, ih]

/-- A listing and its record hold the same entries, as far as an expectation can see. -/
theorem listing_iff {messages : List InboxEntry} {shown : List RouterInboxEntry}
    (h : List.Forall₂ EndToEnd.EntryProjected messages shown) (sender : Option RecipientName)
    (body : String) :
    (∃ entry ∈ messages, entry.body.text = body ∧
        ∀ expected, sender = some expected → entry.sender.text = expected.text) ↔
      ∃ entry ∈ shown, entry.body = body ∧
        ∀ expected, sender = some expected → entry.sender = expected := by
  apply exists_mem_iff_of_forall₂ h
  intro entry record hentry
  cases hentry with
  | entry slot name text =>
    apply and_congr_right'
    apply forall₂_congr
    intro expected _
    cases expected
    simp

/-- The validator looks at the record, and so at the reply that the record shows. -/
theorem meets_iff_answers (h : Projected reply output) (expectation : OutputExpectation) :
    Meets output expectation ↔ Answers reply expectation := by
  cases h with
  | inboxListing hshown =>
    cases expectation with
    | submissionAccepted => simp [Meets, Answers]
    | inboxEntryPresent sender body =>
      simpa [Meets, Answers] using (listing_iff hshown sender body).symm
    | inboxBodyAbsent body =>
      have hpresent := listing_iff hshown none body
      simp only [Meets, Answers, Output.routerInboxListing.injEq, exists_eq_left',
        MessageReply.inboxListing.injEq]
      simpa using (not_congr hpresent).symm
  | _ => cases expectation <;> simp [Meets, Answers]

/-- What becomes of the command, whose daemon gave it this reply in these bytes: it prints the
record that shows the reply, on which the validator decides as the reply deserves, unless the
bytes are more than its codec reads. -/
structure Reported (nota : SurfaceLibrary) (lib : MessageLibrary) (env : Environment)
    (input : Input) (request wire : Bytes) (reply : MessageReply) : Prop where
  within : wire.length ≤ 4+SignalRouterFrameCodec.default.maximumFrameBytes →
    ∃ text, Input.run nota lib input env none = ⟨some request, text, .ok ()⟩ ∧
      ∀ debug files arguments validation, Grammar arguments validation →
        files validation.outputPath = .ok text →
        ((⟨arguments⟩ : OutputValidatorCommandLine).run nota debug files = .ok () ↔
          Answers reply validation.expectation)
  beyond : 4+SignalRouterFrameCodec.default.maximumFrameBytes < wire.length →
    Input.run nota lib input env none =
      ⟨some request, "", .error (.daemonFrameTooLarge (wire.length-4))⟩

/-- The validator on a file that holds what a command printed. -/
theorem validator_decides {text : String} (hdecoded : Output.fromNota nota text = .ok output)
    (hprojected : Projected reply output) {debug : DebugText}
    {files : Word → Except IoError String} {arguments : List Word}
    {validation : OutputValidation} (hg : Grammar arguments validation)
    (hfile : files validation.outputPath = .ok text) :
    (⟨arguments⟩ : OutputValidatorCommandLine).run nota debug files = .ok () ↔
      Answers reply validation.expectation := by
  have hparsed := (@fromArguments_iff debug arguments validation).mpr hg
  have hrun : (⟨arguments⟩ : OutputValidatorCommandLine).run nota debug files =
      validation.check nota debug files := by
    simp only [OutputValidatorCommandLine.run, hparsed]
  rw [hrun, validation_check_iff, ← meets_iff_answers hprojected]
  constructor
  · rintro ⟨text', output', hfile', hdecoded', hmeets⟩
    obtain rfl := Except.ok.inj (hfile.symm.trans hfile')
    obtain rfl := Except.ok.inj (hdecoded.symm.trans hdecoded')
    exact hmeets
  · intro hmeets
    exact ⟨text, output, hfile, hdecoded, hmeets⟩

theorem command_reported {env : Environment} {socket : OsString}
    (hsocket : env.messageSocket = some socket) (hconnect : env.connect socket = routerWriting wire)
    (hfits : Fits d.lib (requestFrameWithExchange d.lib connectorExchange input.intoMessageRequest)
      request)
    (hwrite : writeReply d.lib ⟨connectorExchange, d.lib.signalVerb input.intoMessageRequest,
      input.intoMessageRequest⟩ reply = .ok wire) :
    Reported nota d.lib env input request wire reply where
  within hwire := by
    obtain ⟨text, output, hrun, hdecoded, hprojected⟩ :=
      command_printed hsocket hconnect hfits hwrite hwire
    exact ⟨text, hrun, fun debug files arguments validation hg hfile =>
      validator_decides hdecoded hprojected hg hfile⟩
  beyond hwire := by
    have hencode := writeFrame_ok hwrite
    have hrefused := readFrame_refused hencode hwire
    have hframe : writeFrame d.lib
        (requestFrameWithExchange d.lib connectorExchange input.intoMessageRequest) =
        .ok request := by simp only [writeFrame, hfits.1]
    have hsubmit : SignalMessageClient.submit d.lib (routerWriting wire)
        input.intoMessageRequest =
        ⟨some request, .error (.daemonFrameTooLarge (wire.length-4))⟩ := by
      simp only [SignalMessageClient.submit, submitTo, routerWriting, hframe, hrefused]
    simp only [Input.run, hsocket, hconnect, hsubmit]

/-- Whichever commands run against the daemon and however their steps interleave, a command
that the daemon replied to had its own record forwarded under its caller's identity, and
reports the reply that the router gave to that. -/
theorem commands_validated (nota : SurfaceLibrary) {listen : RouterListener} {events : List Event}
    (hr : (machine d).run (initial d listen) events = some (s, log)) :
    ∀ c input request wire env socket, Speaks d s c input request → .replied c wire ∈ log →
      env.messageSocket = some socket → env.connect socket = routerWriting wire →
      ∃ reply, Attended d log c input wire reply ∧
        Reported nota d.lib env input request wire reply := by
  intro c input request wire env socket hs h hsocket hconnect
  obtain ⟨reply, hattended, hwrite⟩ := command_attended (inv_run hr) hs h
  exact ⟨reply, hattended, command_reported hsocket hconnect hs.fits hwrite⟩

/-- The owner's command, to which the daemon gave the router's acceptance. -/
def ownerEnvironment : Environment :=
  { personaMessageSocket := some EndToEnd.socketVariable
    personaSocketPath := none
    readToString := fun _ => .error .unexpectedEof
    connect := fun _ => routerWriting (TableLibrary.frameBytes 2) }

theorem owner_validated : ∃ s reply,
    (machine IngressMachine.ownerDeployment).run
      (initial IngressMachine.ownerDeployment .ready) IngressMachine.submissionEvents =
        some (s, IngressMachine.submissionLog) ∧
      Attended IngressMachine.ownerDeployment IngressMachine.submissionLog 0
        (.send ⟨⟨"designer"⟩, "hello"⟩) (TableLibrary.frameBytes 2) reply ∧
      Reported textLibrary IngressMachine.ownerDeployment.lib ownerEnvironment
        (.send ⟨⟨"designer"⟩, "hello"⟩) (TableLibrary.frameBytes 0) (TableLibrary.frameBytes 2)
        reply := by
  obtain ⟨s, hr⟩ := IngressMachine.submission_run
  have hs : Speaks IngressMachine.ownerDeployment s 0 (.send ⟨⟨"designer"⟩, "hello"⟩)
      (TableLibrary.frameBytes 0) := by
    cases hr
    exact ⟨⟨rfl, by decide⟩, by decide⟩
  obtain ⟨reply, h⟩ := commands_validated textLibrary hr 0 _ _ _ ownerEnvironment
    EndToEnd.socketVariable hs (by decide) rfl rfl
  exact ⟨s, reply, hr, h⟩

end PersonaMessage.CommandPipeline
