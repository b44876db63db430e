import PersonaMessage.CommandSurface
import PersonaMessage.DaemonConnection

/-! The command line in `src/command.rs`: from its arguments to the record it prints. -/
namespace PersonaMessage.CommandRun
open ByteStream DaemonConnection NotaCodec CommandSurface

/-- An argument or variable of the process, with the standard library's views of it. -/
structure OsString where
  toStr : Option String
  toStringLossy : String
  debug : String
  lossy_eq {text : String} : toStr = some text → toStringLossy = text
  deriving DecidableEq

/-- What the process finds around it. The process behind a socket is given by its path. -/
structure Environment where
  personaMessageSocket : Option OsString
  personaSocketPath : Option OsString
  readToString : OsString → Except IoError String
  connect : OsString → Peer

/-- `SignalMessageSocket::from_environment`. -/
def Environment.messageSocket (env : Environment) : Option OsString :=
  env.personaMessageSocket.or env.personaSocketPath

/-- What reached the daemon, what was printed, and how the run ended. -/
structure Ran where
  sent : Option Bytes
  printed : String
  result : Result Unit
  deriving DecidableEq

variable (nota : SurfaceLibrary) (lib : MessageLibrary)

/-- The output takes the record whole or fails. -/
def Input.run (input : Input) (env : Environment) (output : Option IoError) : Ran :=
  match env.messageSocket with
  | none => ⟨none, "", .error .signalMessageSocketMissing⟩
  | some socket =>
    let request := input.intoMessageRequest
    let submission := SignalMessageClient.submit lib (env.connect socket) request
    match submission.result with
    | .error e => ⟨submission.delivered, "", .error e⟩
    | .ok reply =>
      match Output.fromRouterReply reply with
      | .error e => ⟨submission.delivered, "", .error e⟩
      | .ok record =>
        match record.toNota nota with
        | .error e => ⟨submission.delivered, "", .error e⟩
        | .ok text =>
          match output with
          | some e => ⟨submission.delivered, "", .error (.io e)⟩
          | none => ⟨submission.delivered, text ++ "\n", .ok ()⟩

structure CommandLine where
  arguments : List OsString
  deriving DecidableEq

def startsInlineRecord (argument : OsString) : Bool :=
  argument.toStringLossy.toList.head? = some '('

/-- `InputFile::decode` of the file at a path. -/
def inputFileDecode (env : Environment) (path : OsString) : Result Input :=
  match env.readToString path with
  | .error e => .error (.io e)
  | .ok text => Input.fromNota nota text

def CommandLine.requireSingleArgument (commandLine : CommandLine) : Result Unit :=
  match commandLine.arguments[1]? with
  | some argument => .error (.unexpectedArgument argument.toStringLossy)
  | none => .ok ()

def CommandLine.decodeInput (commandLine : CommandLine) (env : Environment) : Result Input :=
  match commandLine.arguments.head? with
  | none => .error .missingInput
  | some first =>
    match commandLine.requireSingleArgument with
    | .error e => .error e
    | .ok () =>
      if startsInlineRecord first then
        match first.toStr with
        | none => .error (.invalidInlineNotaArgument first.debug)
        | some text => Input.fromNota nota text
      else inputFileDecode nota env first

def CommandLine.run (commandLine : CommandLine) (env : Environment) (output : Option IoError) :
    Ran :=
  match commandLine.decodeInput nota env with
  | .error e => ⟨none, "", .error e⟩
  | .ok input => Input.run nota lib input env output

/-! The two ways of giving the record: the first character of the argument decides which one
it is. -/

variable {nota} {env : Environment}

theorem decodeInput_inline {argument : OsString} {text : String}
    (ht : argument.toStr = some text) (hp : startsInlineRecord argument = true) :
    (⟨[argument]⟩ : CommandLine).decodeInput nota env = Input.fromNota nota text := by
  simp [CommandLine.decodeInput, CommandLine.requireSingleArgument, hp, ht]

theorem decodeInput_file {argument : OsString} (hp : startsInlineRecord argument = false) :
    (⟨[argument]⟩ : CommandLine).decodeInput nota env = inputFileDecode nota env argument := by
  simp [CommandLine.decodeInput, CommandLine.requireSingleArgument, hp]

theorem inputFileDecode_iff {path : OsString} {input : Input} :
    inputFileDecode nota env path = .ok input ↔
      ∃ text, env.readToString path = .ok text ∧ Input.fromNota nota text = .ok input := by
  unfold inputFileDecode
  cases env.readToString path with
  | error e => simp
  | ok text => simp

theorem startsInlineRecord_iff {argument : OsString} {text : String}
    (ht : argument.toStr = some text) :
    startsInlineRecord argument = true ↔ text.toList.head? = some '(' := by
  rw [startsInlineRecord, argument.lossy_eq ht, decide_eq_true_iff]

/-- A record that is accepted from a file is accepted as an argument if it starts with the
parenthesis; else the argument is itself taken for the path of a file. -/
theorem inline_agrees_iff {argument path : OsString} {text : String} {input : Input}
    (ht : argument.toStr = some text) (hn : Input.fromNota nota text = .ok input)
    (hp : startsInlineRecord path = false) (hf : env.readToString path = .ok text) :
    (⟨[argument]⟩ : CommandLine).decodeInput nota env =
        (⟨[path]⟩ : CommandLine).decodeInput nota env ↔
      text.toList.head? = some '(' ∨
        ∃ other, env.readToString argument = .ok other ∧ Input.fromNota nota other = .ok input := by
  have hpath : (⟨[path]⟩ : CommandLine).decodeInput nota env = .ok input := by
    rw [decodeInput_file hp]
    exact inputFileDecode_iff.mpr ⟨text, hf, hn⟩
  rw [hpath, ← startsInlineRecord_iff ht]
  cases hs : startsInlineRecord argument with
  | true =>
    rw [decodeInput_inline ht hs]
    exact ⟨fun _ => Or.inl rfl, fun _ => hn⟩
  | false =>
    rw [decodeInput_file hs, inputFileDecode_iff]
    simp

def plain (text : String) : OsString := ⟨some text, text, text, fun h => Option.some.inj h⟩

/-- One file, which holds this record. -/
def recordEnvironment (text : String) : Environment :=
  { personaMessageSocket := none
    personaSocketPath := none
    readToString := fun path =>
      if path = plain "record.nota" then .ok text else .error .notFound
    connect := fun _ => ⟨some .connectionRefused, none, fun _ => []⟩ }

theorem plain_record_agrees :
    (⟨[plain "(Inbox designer)"]⟩ : CommandLine).decodeInput textLibrary
        (recordEnvironment "(Inbox designer)") =
      (⟨[plain "record.nota"]⟩ : CommandLine).decodeInput textLibrary
        (recordEnvironment "(Inbox designer)") :=
  (@inline_agrees_iff textLibrary (recordEnvironment "(Inbox designer)")
    (plain "(Inbox designer)") (plain "record.nota") "(Inbox designer)" (.inbox ⟨⟨"designer"⟩⟩)
    rfl (by decide) (by decide) rfl).mpr (Or.inl (by decide))

/-- A blank before the record, and the argument names a file that is not there. -/
theorem blank_record_differs :
    Input.fromNota textLibrary " (Inbox designer)" = .ok (.inbox ⟨⟨"designer"⟩⟩) ∧
    (⟨[plain "record.nota"]⟩ : CommandLine).decodeInput textLibrary
      (recordEnvironment " (Inbox designer)") = .ok (.inbox ⟨⟨"designer"⟩⟩) ∧
    (⟨[plain " (Inbox designer)"]⟩ : CommandLine).decodeInput textLibrary
      (recordEnvironment " (Inbox designer)") = .error (.io .notFound) := by
  have hn : Input.fromNota textLibrary " (Inbox designer)" = .ok (.inbox ⟨⟨"designer"⟩⟩) := by
    decide
  refine ⟨hn, ?_, ?_⟩
  · rw [decodeInput_file (by decide)]
    exact inputFileDecode_iff.mpr ⟨_, rfl, hn⟩
  · rw [decodeInput_file (by decide)]
    rfl

end PersonaMessage.CommandRun
