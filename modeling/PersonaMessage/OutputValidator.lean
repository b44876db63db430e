import PersonaMessage.CursorParser
import PersonaMessage.CommandRun

/-! The output validator in `src/output_validator.rs`: its argument parser, its expectations
and what it makes of the record in a file. -/
namespace PersonaMessage.OutputValidator
open ByteStream NotaCodec CommandSurface CommandRun CursorParser

/-- An argument, whose lossy view shows the replacement character where it is not UTF-8. -/
structure Word extends OsString where
  lossy_replaced : toStr = none → Char.ofNat 0xFFFD ∈ toStringLossy.toList

/-- What `Debug` prints. -/
structure DebugText where
  string : String → String
  sender : Option RecipientName → String
  output : Output → String

abbrev OutputValidatorArguments := Cursor Word

namespace OutputValidatorArguments

def requiredValue (name : String) : Parser Error Word Word := do
  let parser ← get
  match parser.arguments[parser.index]? with
  | none => throw (.invalidValidatorArgument s!"missing value for {name}")
  | some value =>
    set (parser.skip 1)
    return value

def requiredWord (name : String) : Parser Error Word String := do
  let value ← requiredValue name
  match value.toStr with
  | none =>
    throw (.invalidValidatorArgument (s!"{name} must be UTF-8, got " ++ value.debug))
  | some text => return text

def expectOptionName (debug : DebugText) (name : String) : Parser Error Word Unit := do
  let got ← requiredWord "option"
  if got = name then return ()
  else throw (.invalidValidatorArgument (s!"expected option {name}, got " ++ debug.string got))

def requiredPathOption (debug : DebugText) (name : String) : Parser Error Word Word := do
  expectOptionName debug name
  requiredValue name

def requiredStringOption (debug : DebugText) (name : String) : Parser Error Word String := do
  expectOptionName debug name
  requiredWord name

def peekWord : Parser Error Word (Option String) := do
  let parser ← get
  return parser.arguments[parser.index]?.map fun value => value.toStringLossy

def optionalStringOption (name : String) : Parser Error Word (Option String) := do
  let word ← peekWord
  if word = some name then
    modify (·.skip 1)
    let value ← requiredWord name
    return some value
  else return none

def expectFinished : Parser Error Word Unit := do
  let parser ← get
  match parser.arguments[parser.index]? with
  | some extra => throw (.unexpectedArgument extra.toStringLossy)
  | none => return ()

end OutputValidatorArguments

inductive OutputExpectation
  | submissionAccepted
  | inboxEntryPresent (sender : Option RecipientName) (body : String)
  | inboxBodyAbsent (body : String)
  deriving DecidableEq

structure RouterInboxOutput where
  listing : RouterInboxListing
  deriving DecidableEq

namespace RouterInboxOutput

def fromOutput (debug : DebugText) (output : Output) : Result RouterInboxOutput :=
  match output with
  | .routerInboxListing listing => .ok ⟨listing⟩
  | other => .error (.outputValidation ("expected RouterInboxListing, got " ++ debug.output other))

def containsEntry (inbox : RouterInboxOutput) (sender : Option RecipientName) (body : String) :
    Bool :=
  inbox.listing.messages.any fun entry =>
    entry.body == body && (sender.map fun expected => entry.sender == expected).getD true

def containsBody (inbox : RouterInboxOutput) (body : String) : Bool :=
  inbox.listing.messages.any fun entry => entry.body == body

end RouterInboxOutput

namespace OutputExpectation
variable (debug : DebugText)

def fromParser : Parser Error Word OutputExpectation := do
  let word ← OutputValidatorArguments.requiredWord "expectation"
  match word with
  | "expect-submission-accepted" => return .submissionAccepted
  | "expect-inbox-entry" =>
    let sender ← OutputValidatorArguments.optionalStringOption "--sender"
    let body ← OutputValidatorArguments.requiredStringOption debug "--body"
    return .inboxEntryPresent (sender.map .mk) body
  | "expect-inbox-body-absent" =>
    let body ← OutputValidatorArguments.requiredStringOption debug "--body"
    return .inboxBodyAbsent body
  | other => throw (.invalidValidatorArgument ("unknown expectation " ++ debug.string other))

def checkSubmissionAccepted (output : Output) : Result Unit :=
  match output with
  | .submissionAccepted _ => .ok ()
  | other =>
    .error (.outputValidation ("expected SubmissionAccepted, got " ++ debug.output other))

def checkInboxEntryPresent (output : Output) (sender : Option RecipientName) (body : String) :
    Result Unit :=
  match RouterInboxOutput.fromOutput debug output with
  | .error e => .error e
  | .ok inbox =>
    if inbox.containsEntry sender body then .ok ()
    else .error (.outputValidation ("missing inbox entry sender=" ++ debug.sender sender ++
      " body=" ++ debug.string body ++ "; output=" ++ debug.output output))

def checkInboxBodyAbsent (output : Output) (body : String) : Result Unit :=
  match RouterInboxOutput.fromOutput debug output with
  | .error e => .error e
  | .ok inbox =>
    if inbox.containsBody body then
      .error (.outputValidation ("inbox unexpectedly contained body=" ++ debug.string body ++
        "; output=" ++ debug.output output))
    else .ok ()

def check (expectation : OutputExpectation) (output : Output) : Result Unit :=
  match expectation with
  | .submissionAccepted => checkSubmissionAccepted debug output
  | .inboxEntryPresent sender body => checkInboxEntryPresent debug output sender body
  | .inboxBodyAbsent body => checkInboxBodyAbsent debug output body

end OutputExpectation

structure OutputValidation where
  outputPath : Word
  expectation : OutputExpectation

/-- The body of `OutputValidation::from_arguments`. -/
def OutputValidation.parse (debug : DebugText) : Parser Error Word OutputValidation := do
  let outputPath ← OutputValidatorArguments.requiredPathOption debug "--file"
  let expectation ← OutputExpectation.fromParser debug
  OutputValidatorArguments.expectFinished
  return ⟨outputPath, expectation⟩

def OutputValidation.fromArguments (debug : DebugText) (arguments : List Word) :
    Result OutputValidation :=
  match (OutputValidation.parse debug).run ⟨arguments, 0⟩ with
  | .ok validation _ => .ok validation
  | .error e _ => .error e

def OutputValidation.check (nota : SurfaceLibrary) (debug : DebugText)
    (readToString : Word → Except IoError String) (validation : OutputValidation) : Result Unit :=
  match readToString validation.outputPath with
  | .error e => .error (.io e)
  | .ok text =>
    match Output.fromNota nota text with
    | .error e => .error e
    | .ok output => validation.expectation.check debug output

structure OutputValidatorCommandLine where
  arguments : List Word

def OutputValidatorCommandLine.run (nota : SurfaceLibrary) (debug : DebugText)
    (readToString : Word → Except IoError String) (commandLine : OutputValidatorCommandLine) :
    Result Unit :=
  match OutputValidation.fromArguments debug commandLine.arguments with
  | .error e => .error e
  | .ok validation => validation.check nota debug readToString

/-! What the command line has to say. -/

/-- The words are UTF-8 and say these texts. -/
def Says (words : List Word) (texts : List String) : Prop :=
  words.map (fun word => word.toStr) = texts.map some

/-- The words that ask for an expectation. -/
def OutputExpectation.words : OutputExpectation → List String
  | .submissionAccepted => ["expect-submission-accepted"]
  | .inboxEntryPresent none body => ["expect-inbox-entry", "--body", body]
  | .inboxEntryPresent (some sender) body =>
    ["expect-inbox-entry", "--sender", sender.text, "--body", body]
  | .inboxBodyAbsent body => ["expect-inbox-body-absent", "--body", body]

/-- The path is a word of any bytes. -/
def Grammar (arguments : List Word) (validation : OutputValidation) : Prop :=
  ∃ file words, arguments = file :: validation.outputPath :: words ∧ Says [file] ["--file"] ∧
    Says words validation.expectation.words

theorem says_append {words : List Word} {texts others : List String} :
    Says words (texts ++ others) ↔
      ∃ u v, words = u ++ v ∧ Says u texts ∧ Says v others := by
  simp only [Says, List.map_append, List.map_eq_append_iff]

theorem says_cons {words : List Word} {text : String} {texts : List String} :
    Says words (text :: texts) ↔
      ∃ word later, words = word :: later ∧ word.toStr = some text ∧ Says later texts := by
  simp only [Says, List.map_cons, List.map_eq_cons_iff]

theorem says_nil {words : List Word} : Says words [] ↔ words = [] := by
  simp only [Says, List.map_nil, List.map_eq_nil_iff]

/-- A word that looks like a text without the replacement character is that text. -/
theorem Word.lossy_iff (word : Word) {text : String} (h : Char.ofNat 0xFFFD ∉ text.toList) :
    word.toStringLossy = text ↔ word.toStr = some text := by
  constructor
  · intro hl
    cases ht : word.toStr with
    | none =>
      have hr := word.lossy_replaced ht
      rw [hl] at hr
      exact absurd hr h
    | some other => rw [← word.lossy_eq ht, hl]
  · exact word.lossy_eq

section Reads
open OutputValidatorArguments
variable {debug : DebugText} {name : String} {α : Type}

theorem run_requiredValue (name : String) (c : OutputValidatorArguments) :
    (requiredValue name).run c = match c.rest.head? with
      | none => .error (.invalidValidatorArgument s!"missing value for {name}") c
      | some value => .ok value (c.skip 1) := by
  unfold requiredValue
  rw [run_get_bind, c.head_rest]
  cases c.rest.head? <;> rfl

theorem reads_requiredValue (name : String) :
    Reads (requiredValue name) fun value words => words = [value] := by
  intro c value c'
  rw [run_requiredValue]
  cases hr : c.rest with
  | nil => simp
  | cons first later =>
    constructor
    · intro h
      obtain ⟨rfl, rfl⟩ := EStateM.Result.ok.inj h
      exact ⟨_, rfl, by simp, rfl⟩
    · rintro ⟨_, rfl, hp, rfl⟩
      obtain ⟨rfl, _⟩ := List.cons_prefix_cons.mp hp
      rfl

theorem reads_requiredWord (name : String) :
    Reads (requiredWord name) fun text words => Says words [text] := by
  have htext : ∀ value : Word, Reads (match value.toStr with
      | none => throw (.invalidValidatorArgument (s!"{name} must be UTF-8, got " ++ value.debug))
      | some text => return text : Parser Error Word String)
      fun text words => value.toStr = some text ∧ words = [] := by
    intro value
    cases ht : value.toStr with
    | none => exact (Reads.throw _).congr fun text words => by simp
    | some text =>
      refine (Reads.pure text).congr fun other words => ?_
      rw [Option.some.injEq, eq_comm]
  refine ((reads_requiredValue name).bind htext).congr fun text words => ?_
  rw [says_cons]
  constructor
  · rintro ⟨value, _, _, rfl, rfl, ht, rfl⟩
    exact ⟨value, [], rfl, ht, says_nil.mpr rfl⟩
  · rintro ⟨value, later, rfl, ht, hl⟩
    obtain rfl := says_nil.mp hl
    exact ⟨value, [value], [], rfl, rfl, ht, rfl⟩

theorem reads_expectOptionName (debug : DebugText) (name : String) :
    Reads (expectOptionName debug name) fun _ words => Says words [name] := by
  have hgot : ∀ got : String, Reads (if got = name then return ()
      else throw (.invalidValidatorArgument (s!"expected option {name}, got " ++
        debug.string got)) : Parser Error Word Unit) fun _ words => got = name ∧ words = [] := by
    intro got
    split_ifs with h
    · exact (Reads.pure ()).congr fun _ words => by simp [h]
    · exact (Reads.throw _).congr fun _ words => by simp [h]
  refine ((reads_requiredWord "option").bind hgot).congr fun _ words => ?_
  constructor
  · rintro ⟨got, u, _, rfl, hu, rfl, rfl⟩
    rwa [List.append_nil]
  · intro h
    exact ⟨name, words, [], by rw [List.append_nil], h, rfl, rfl⟩

theorem reads_requiredPathOption (debug : DebugText) (name : String) :
    Reads (requiredPathOption debug name) fun path words =>
      ∃ option, words = [option, path] ∧ Says [option] [name] := by
  refine ((reads_expectOptionName debug name).bind fun _ => reads_requiredValue name).congr
    fun path words => ?_
  constructor
  · rintro ⟨_, u, _, rfl, hu, rfl⟩
    obtain ⟨option, later, rfl, ht, hl⟩ := says_cons.mp hu
    obtain rfl := says_nil.mp hl
    exact ⟨option, rfl, hu⟩
  · rintro ⟨option, rfl, hu⟩
    exact ⟨(), [option], [path], rfl, hu, rfl⟩

theorem reads_requiredStringOption (debug : DebugText) (name : String) :
    Reads (requiredStringOption debug name) fun text words => Says words [name, text] := by
  refine ((reads_expectOptionName debug name).bind fun _ => reads_requiredWord name).congr
    fun text words => ?_
  rw [show [name, text] = [name] ++ [text] from rfl, says_append]
  exact ⟨fun ⟨_, h⟩ => h, fun h => ⟨(), h⟩⟩

theorem run_optionalStringOption (name : String) (c : OutputValidatorArguments) :
    (optionalStringOption name).run c =
      if (c.rest.head?.map fun value => value.toStringLossy) = some name then
        (requiredWord name >>= fun value => pure (some value)).run (c.skip 1)
      else .ok none c := by
  have hpeek : peekWord.run c = .ok (c.rest.head?.map fun value => value.toStringLossy) c := by
    rw [← c.head_rest]
    rfl
  rw [optionalStringOption, run_bind_of_ok hpeek]
  split_ifs <;> rfl

/-- The option is taken exactly if the next word is its name: a word that only looks like it
is it. What reads on without the option must not take that name for something else. -/
theorem reads_optionalStringOption (debug : DebugText) {name : String}
    (hname : Char.ofNat 0xFFFD ∉ name.toList) {f : Option String → Parser Error Word α}
    {R : α → List Word → Prop} {S : String → α → List Word → Prop} (hnone : Reads (f none) R)
    (hsome : ∀ text, Reads (f (some text)) (S text))
    (hR : ∀ a words, R a words → ∃ word later, words = word :: later ∧ ¬ Says [word] [name]) :
    Reads (optionalStringOption name >>= f) fun a words =>
      R a words ∨ ∃ text u v, words = u ++ v ∧ Says u [name, text] ∧ S text a v := by
  intro c a c'
  have hoptional := run_optionalStringOption name c
  by_cases hnamed : ∃ word later, c.rest = word :: later ∧ word.toStr = some name
  · obtain ⟨word, later, hc, hw⟩ := hnamed
    have hlossy := (word.lossy_iff hname).mpr hw
    have hoption : (expectOptionName debug name).run c = .ok () (c.skip 1) :=
      (reads_expectOptionName debug name c () _).mpr
        ⟨[word], says_cons.mpr ⟨word, [], rfl, hw, says_nil.mpr rfl⟩, by simp [hc], rfl⟩
    have hrun : (optionalStringOption name).run c =
        (requiredStringOption debug name >>= fun value => pure (some value)).run c := by
      rw [hoptional, if_pos (by simp [hc, hlossy]), requiredStringOption, bind_assoc,
        run_bind_of_ok hoption]
    rw [run_bind_congr hrun, bind_assoc]
    simp only [pure_bind]
    rw [(reads_requiredStringOption debug name).bind hsome c a c']
    constructor
    · rintro ⟨words, hs, hp, rfl⟩
      exact ⟨words, Or.inr hs, hp, rfl⟩
    · rintro ⟨words, hr | hs, hp, rfl⟩
      · obtain ⟨word', later', rfl, hn⟩ := hR a words hr
        rw [hc] at hp
        obtain ⟨rfl, _⟩ := List.cons_prefix_cons.mp hp
        exact absurd (says_cons.mpr ⟨_, [], rfl, hw, says_nil.mpr rfl⟩) hn
      · exact ⟨words, hs, hp, rfl⟩
  · have hnot : ¬ (c.rest.head?.map fun value => value.toStringLossy) = some name := by
      intro h
      obtain ⟨word, hh, hl⟩ := Option.map_eq_some_iff.mp h
      obtain ⟨later, hc⟩ := List.head?_eq_some_iff.mp hh
      exact hnamed ⟨word, later, hc, (word.lossy_iff hname).mp hl⟩
    rw [if_neg hnot] at hoptional
    rw [run_bind_of_ok hoptional, hnone c a c']
    constructor
    · rintro ⟨words, hr, hp, rfl⟩
      exact ⟨words, Or.inl hr, hp, rfl⟩
    · rintro ⟨words, hr | ⟨text, u, v, rfl, hu, _⟩, hp, rfl⟩
      · exact ⟨words, hr, hp, rfl⟩
      · obtain ⟨word, later, rfl, hw, _⟩ := says_cons.mp hu
        obtain ⟨t, ht⟩ := hp
        exact absurd ⟨word, later ++ v ++ t, by rw [← ht]; simp, hw⟩ hnamed

/-- What follows the first word of an expectation. -/
theorem reads_inboxEntry (debug : DebugText) :
    Reads (do
        let sender ← optionalStringOption "--sender"
        let body ← requiredStringOption debug "--body"
        return OutputExpectation.inboxEntryPresent (sender.map .mk) body)
      fun expectation words => ∃ tail, expectation.words = "expect-inbox-entry" :: tail ∧
        Says words tail := by
  have hbody : ∀ sender : Option String, Reads (do
      let body ← requiredStringOption debug "--body"
      return OutputExpectation.inboxEntryPresent (sender.map .mk) body)
      fun expectation words => ∃ body,
        expectation = .inboxEntryPresent (sender.map .mk) body ∧ Says words ["--body", body] := by
    intro sender
    refine ((reads_requiredStringOption debug "--body").bind fun body =>
      Reads.pure (OutputExpectation.inboxEntryPresent (sender.map .mk) body)).congr
        fun expectation words => ?_
    constructor
    · rintro ⟨body, u, _, rfl, hu, rfl, rfl⟩
      exact ⟨body, rfl, by rwa [List.append_nil]⟩
    · rintro ⟨body, rfl, hw⟩
      exact ⟨body, words, [], by rw [List.append_nil], hw, rfl, rfl⟩
  refine (reads_optionalStringOption debug (by decide) (hbody none) (fun sender =>
    hbody (some sender)) ?_).congr fun expectation words => ?_
  · rintro expectation words ⟨body, _, hw⟩
    obtain ⟨word, later, rfl, ht, _⟩ := says_cons.mp hw
    refine ⟨word, later, rfl, fun h => ?_⟩
    obtain ⟨_, _, he, hs, _⟩ := says_cons.mp h
    obtain ⟨rfl, _⟩ := List.cons.inj he
    rw [ht] at hs
    exact absurd (Option.some.inj hs) (by decide)
  · constructor
    · rintro (⟨body, rfl, hw⟩ | ⟨sender, u, v, rfl, hu, body, rfl, hv⟩)
      · exact ⟨["--body", body], rfl, hw⟩
      · exact ⟨["--sender", sender] ++ ["--body", body], rfl, says_append.mpr ⟨u, v, rfl, hu, hv⟩⟩
    · rintro ⟨tail, he, hw⟩
      cases expectation with
      | submissionAccepted => simp [OutputExpectation.words] at he
      | inboxBodyAbsent body => simp [OutputExpectation.words] at he
      | inboxEntryPresent sender body =>
        cases sender with
        | none =>
          obtain rfl := (List.cons.inj he).2
          exact Or.inl ⟨body, rfl, hw⟩
        | some sender =>
          obtain rfl := (List.cons.inj he).2
          obtain ⟨u, v, rfl, hu, hv⟩ := says_append.mp
            (show Says words (["--sender", sender.text] ++ ["--body", body]) from hw)
          exact Or.inr ⟨sender.text, u, v, rfl, hu, body, rfl, hv⟩

theorem reads_bodyAbsent (debug : DebugText) :
    Reads (do
        let body ← requiredStringOption debug "--body"
        return OutputExpectation.inboxBodyAbsent body)
      fun expectation words => ∃ tail, expectation.words = "expect-inbox-body-absent" :: tail ∧
        Says words tail := by
  refine ((reads_requiredStringOption debug "--body").bind fun body =>
    Reads.pure (OutputExpectation.inboxBodyAbsent body)).congr fun expectation words => ?_
  constructor
  · rintro ⟨body, u, _, rfl, hu, rfl, rfl⟩
    exact ⟨["--body", body], rfl, by rwa [List.append_nil]⟩
  · rintro ⟨tail, he, hw⟩
    cases expectation with
    | submissionAccepted => simp [OutputExpectation.words] at he
    | inboxEntryPresent sender body => cases sender <;> simp [OutputExpectation.words] at he
    | inboxBodyAbsent body =>
      obtain rfl := (List.cons.inj he).2
      exact ⟨body, words, [], by rw [List.append_nil], hw, rfl, rfl⟩

/-- An expectation is read from the words that ask for it. -/
theorem reads_fromParser (debug : DebugText) :
    Reads (OutputExpectation.fromParser debug) fun expectation words =>
      Says words expectation.words := by
  refine (@Reads.bind _ _ _ _ _ _ _ (fun word expectation words =>
    ∃ tail, expectation.words = word :: tail ∧ Says words tail)
    (reads_requiredWord "expectation") fun word => ?_).congr fun expectation words => ?_
  · split
    · refine (Reads.pure _).congr fun expectation words => ?_
      constructor
      · rintro ⟨rfl, rfl⟩
        exact ⟨[], rfl, says_nil.mpr rfl⟩
      · rintro ⟨tail, he, hw⟩
        cases expectation with
        | submissionAccepted =>
          obtain rfl := (List.cons.inj he).2
          exact ⟨rfl, says_nil.mp hw⟩
        | inboxEntryPresent sender body => cases sender <;> simp [OutputExpectation.words] at he
        | inboxBodyAbsent body => simp [OutputExpectation.words] at he
    · exact reads_inboxEntry debug
    · exact reads_bodyAbsent debug
    · next haccepted hentry habsent =>
      refine (Reads.throw _).congr fun expectation words => ⟨False.elim, ?_⟩
      rintro ⟨tail, he, _⟩
      cases expectation with
      | submissionAccepted => exact haccepted (List.cons.inj he).1.symm
      | inboxEntryPresent sender body =>
        cases sender <;> exact hentry (List.cons.inj he).1.symm
      | inboxBodyAbsent body => exact habsent (List.cons.inj he).1.symm
  · constructor
    · rintro ⟨word, u, v, rfl, hu, tail, he, hv⟩
      rw [he]
      exact says_append.mpr ⟨u, v, rfl, hu, hv⟩
    · intro hw
      obtain ⟨word, tail, he⟩ : ∃ word tail, expectation.words = word :: tail := by
        cases expectation with
        | submissionAccepted => exact ⟨_, _, rfl⟩
        | inboxEntryPresent sender body => cases sender <;> exact ⟨_, _, rfl⟩
        | inboxBodyAbsent body => exact ⟨_, _, rfl⟩
      rw [he] at hw
      obtain ⟨u, v, rfl, hu, hv⟩ := says_append.mp (show Says words ([word] ++ tail) from hw)
      exact ⟨word, u, v, rfl, hu, tail, he, hv⟩

theorem reads_grammar (debug : DebugText) :
    Reads (do
        let outputPath ← requiredPathOption debug "--file"
        let expectation ← OutputExpectation.fromParser debug
        return (⟨outputPath, expectation⟩ : OutputValidation))
      fun validation words => Grammar words validation := by
  refine ((reads_requiredPathOption debug "--file").bind fun outputPath =>
    (reads_fromParser debug).bind fun expectation =>
      Reads.pure (⟨outputPath, expectation⟩ : OutputValidation)).congr
        fun validation words => ?_
  constructor
  · rintro ⟨path, _, _, rfl, ⟨file, rfl, hfile⟩, expectation, v, _, rfl, hv, rfl, rfl⟩
    exact ⟨file, v, by simp, hfile, hv⟩
  · rintro ⟨file, v, rfl, hfile, hv⟩
    exact ⟨validation.outputPath, [file, validation.outputPath], v, rfl, ⟨file, rfl, hfile⟩,
      validation.expectation, v, [], by rw [List.append_nil], hv, rfl, rfl⟩

theorem run_expectFinished (c : OutputValidatorArguments) :
    expectFinished.run c = match c.rest.head? with
      | some extra => .error (.unexpectedArgument extra.toStringLossy) c
      | none => .ok () c := by
  unfold expectFinished
  rw [run_get_bind, c.head_rest]
  cases c.rest.head? <;> rfl

theorem expectFinished_ok {validation validation' : OutputValidation}
    {c c' : OutputValidatorArguments} :
    (expectFinished >>= fun _ => pure validation').run c = .ok validation c' ↔
      validation' = validation ∧ c = c' ∧ c.rest = [] := by
  have hrun := run_expectFinished c
  cases hr : c.rest with
  | nil =>
    rw [hr] at hrun
    rw [run_bind_of_ok hrun]
    constructor
    · intro h
      obtain ⟨rfl, rfl⟩ := EStateM.Result.ok.inj h
      exact ⟨rfl, rfl, rfl⟩
    · rintro ⟨rfl, rfl, _⟩
      rfl
  | cons extra later =>
    rw [hr] at hrun
    rw [run_bind_ok]
    constructor
    · rintro ⟨_, _, h, _⟩
      cases hrun.symm.trans h
    · rintro ⟨_, _, h⟩
      cases h

end Reads

/-- The parser accepts exactly the command lines of the grammar. -/
theorem fromArguments_iff {debug : DebugText} {arguments : List Word}
    {validation : OutputValidation} :
    OutputValidation.fromArguments debug arguments = .ok validation ↔
      Grammar arguments validation := by
  rw [← (reads_grammar debug).whole]
  have hparse : OutputValidation.parse debug = (do
      let outputPath ← OutputValidatorArguments.requiredPathOption debug "--file"
      let expectation ← OutputExpectation.fromParser debug
      return (⟨outputPath, expectation⟩ : OutputValidation)) >>= fun validation =>
        OutputValidatorArguments.expectFinished >>= fun _ => pure validation := by
    simp only [OutputValidation.parse, bind_assoc, pure_bind]
  have hok : OutputValidation.fromArguments debug arguments = .ok validation ↔
      ∃ c, (OutputValidation.parse debug).run ⟨arguments, 0⟩ = .ok validation c := by
    unfold OutputValidation.fromArguments
    cases (OutputValidation.parse debug).run ⟨arguments, 0⟩ with
    | ok found c => simp
    | error e c => simp
  rw [hok, hparse]
  constructor
  · rintro ⟨c, h⟩
    obtain ⟨found, d, hq, hf⟩ := run_bind_ok.mp h
    obtain ⟨rfl, rfl, hd⟩ := expectFinished_ok.mp hf
    exact ⟨d, hq, hd⟩
  · rintro ⟨c, hq, hc⟩
    exact ⟨c, run_bind_ok.mpr ⟨validation, c, hq, expectFinished_ok.mpr ⟨rfl, rfl, hc⟩⟩⟩

/-- What an output has to be. -/
def Meets (output : Output) : OutputExpectation → Prop
  | .submissionAccepted => ∃ accepted, output = .submissionAccepted accepted
  | .inboxEntryPresent sender body => ∃ listing, output = .routerInboxListing listing ∧
    ∃ entry ∈ listing.messages, entry.body = body ∧
      ∀ expected, sender = some expected → entry.sender = expected
  | .inboxBodyAbsent body => ∃ listing, output = .routerInboxListing listing ∧
    ∀ entry ∈ listing.messages, entry.body ≠ body

theorem containsEntry_iff {inbox : RouterInboxOutput} {sender : Option RecipientName}
    {body : String} :
    inbox.containsEntry sender body = true ↔ ∃ entry ∈ inbox.listing.messages,
      entry.body = body ∧ ∀ expected, sender = some expected → entry.sender = expected := by
  cases sender <;> simp [RouterInboxOutput.containsEntry]

theorem containsBody_iff {inbox : RouterInboxOutput} {body : String} :
    inbox.containsBody body = true ↔ ∃ entry ∈ inbox.listing.messages, entry.body = body := by
  simp [RouterInboxOutput.containsBody]

theorem checkSubmissionAccepted_iff {debug : DebugText} {output : Output} :
    OutputExpectation.checkSubmissionAccepted debug output = .ok () ↔
      ∃ accepted, output = .submissionAccepted accepted := by
  cases output <;> simp [OutputExpectation.checkSubmissionAccepted]

theorem checkInboxEntryPresent_iff {debug : DebugText} {output : Output}
    {sender : Option RecipientName} {body : String} :
    OutputExpectation.checkInboxEntryPresent debug output sender body = .ok () ↔
      Meets output (.inboxEntryPresent sender body) := by
  cases output with
  | routerInboxListing listing =>
    have hiff := @containsEntry_iff ⟨listing⟩ sender body
    simp only [OutputExpectation.checkInboxEntryPresent, RouterInboxOutput.fromOutput, Meets,
      Output.routerInboxListing.injEq, exists_eq_left', ← hiff]
    split_ifs with h <;> simp [h]
  | _ => simp [OutputExpectation.checkInboxEntryPresent, RouterInboxOutput.fromOutput, Meets]

theorem checkInboxBodyAbsent_iff {debug : DebugText} {output : Output} {body : String} :
    OutputExpectation.checkInboxBodyAbsent debug output body = .ok () ↔
      Meets output (.inboxBodyAbsent body) := by
  cases output with
  | routerInboxListing listing =>
    have hiff := @containsBody_iff ⟨listing⟩ body
    simp only [OutputExpectation.checkInboxBodyAbsent, RouterInboxOutput.fromOutput, Meets,
      Output.routerInboxListing.injEq, exists_eq_left']
    split_ifs with h
    · obtain ⟨entry, hm, he⟩ := hiff.mp h
      simp only [false_iff]
      exact fun hall => hall entry hm he
    · simp only [true_iff]
      exact fun entry hm he => h (hiff.mpr ⟨entry, hm, he⟩)
  | _ => simp [OutputExpectation.checkInboxBodyAbsent, RouterInboxOutput.fromOutput, Meets]

theorem check_iff (debug : DebugText) (expectation : OutputExpectation) (output : Output) :
    expectation.check debug output = .ok () ↔ Meets output expectation := by
  cases expectation with
  | submissionAccepted => exact checkSubmissionAccepted_iff
  | inboxEntryPresent sender body => exact checkInboxEntryPresent_iff
  | inboxBodyAbsent body => exact checkInboxBodyAbsent_iff

theorem validation_check_iff {nota : SurfaceLibrary} {debug : DebugText}
    {readToString : Word → Except IoError String} {validation : OutputValidation} :
    validation.check nota debug readToString = .ok () ↔
      ∃ text output, readToString validation.outputPath = .ok text ∧
        Output.fromNota nota text = .ok output ∧ Meets output validation.expectation := by
  unfold OutputValidation.check
  cases readToString validation.outputPath with
  | error e => simp
  | ok text =>
    cases hn : Output.fromNota nota text with
    | error e => simp [hn]
    | ok output => simp [hn, check_iff]

section Stays
open OutputValidatorArguments

theorem stays_requiredValue (name : String) : Stays (requiredValue name) := by
  intro c hc
  rw [run_requiredValue]
  cases hr : c.rest with
  | nil => exact ⟨rfl, hc⟩
  | cons first later =>
    have hlt : c.index < c.arguments.length := by
      by_contra hlt
      have hnil : c.rest = [] := List.drop_eq_nil_of_le (by omega)
      rw [hr] at hnil
      cases hnil
    exact ⟨rfl, hlt⟩

theorem stays_requiredWord (name : String) : Stays (requiredWord name) := by
  refine (stays_requiredValue name).bind fun value => ?_
  split
  · exact Stays.throw _
  · exact Stays.pure _

theorem stays_expectOptionName (debug : DebugText) (name : String) :
    Stays (expectOptionName debug name) := by
  refine (stays_requiredWord "option").bind fun got => ?_
  split_ifs
  · exact Stays.pure _
  · exact Stays.throw _

theorem stays_requiredStringOption (debug : DebugText) (name : String) :
    Stays (requiredStringOption debug name) :=
  (stays_expectOptionName debug name).bind fun _ => stays_requiredWord name

theorem stays_optionalStringOption (name : String) : Stays (optionalStringOption name) := by
  intro c hc
  rw [run_optionalStringOption]
  split_ifs with h
  · have hlt : c.index < c.arguments.length := by
      by_contra hlt
      have hnil : c.rest = [] := List.drop_eq_nil_of_le (by omega)
      simp [hnil] at h
    exact (stays_requiredWord name).bind (fun _ => Stays.pure _) (c.skip 1) hlt
  · exact ⟨rfl, hc⟩

theorem stays_fromParser (debug : DebugText) : Stays (OutputExpectation.fromParser debug) := by
  refine (stays_requiredWord "expectation").bind fun word => ?_
  split
  · exact Stays.pure _
  · exact (stays_optionalStringOption "--sender").bind fun _ =>
      (stays_requiredStringOption debug "--body").bind fun _ => Stays.pure _
  · exact (stays_requiredStringOption debug "--body").bind fun _ => Stays.pure _
  · exact Stays.throw _

theorem stays_expectFinished : Stays expectFinished := by
  intro c hc
  rw [run_expectFinished]
  cases c.rest.head? <;> exact ⟨rfl, hc⟩

theorem stays_parse (debug : DebugText) : Stays (OutputValidation.parse debug) :=
  ((stays_expectOptionName debug "--file").bind fun _ => stays_requiredValue "--file").bind
    fun _ => (stays_fromParser debug).bind fun _ => stays_expectFinished.bind
      fun _ => Stays.pure _

end Stays

/-- What the validator has to accept, and to decide. -/
structure ValidatesExactly (nota : SurfaceLibrary) (debug : DebugText)
    (readToString : Word → Except IoError String) : Prop where
  run_iff (arguments : List Word) :
    (⟨arguments⟩ : OutputValidatorCommandLine).run nota debug readToString = .ok () ↔
      ∃ validation text output, Grammar arguments validation ∧
        readToString validation.outputPath = .ok text ∧
        Output.fromNota nota text = .ok output ∧ Meets output validation.expectation
  unambiguous (arguments : List Word) (validation other : OutputValidation) :
    Grammar arguments validation → Grammar arguments other → validation = other
  present_iff_not_absent (listing : RouterInboxListing) (body : String) :
    (OutputExpectation.inboxEntryPresent none body).check debug (.routerInboxListing listing) =
        .ok () ↔
      ¬ (OutputExpectation.inboxBodyAbsent body).check debug (.routerInboxListing listing) =
        .ok ()
  listings_only (output : Output) (sender : Option RecipientName) (body : String) :
    (∀ listing, output ≠ .routerInboxListing listing) →
      (OutputExpectation.inboxEntryPresent sender body).check debug output ≠ .ok () ∧
      (OutputExpectation.inboxBodyAbsent body).check debug output ≠ .ok ()
  within : Stays (OutputValidation.parse debug)

theorem output_validator_exact (nota : SurfaceLibrary) (debug : DebugText)
    (readToString : Word → Except IoError String) :
    ValidatesExactly nota debug readToString where
  run_iff arguments := by
    have hrun : (⟨arguments⟩ : OutputValidatorCommandLine).run nota debug readToString = .ok () ↔
        ∃ validation, OutputValidation.fromArguments debug arguments = .ok validation ∧
          validation.check nota debug readToString = .ok () := by
      unfold OutputValidatorCommandLine.run
      cases OutputValidation.fromArguments debug arguments <;> simp
    simp only [hrun, fromArguments_iff, validation_check_iff, exists_and_left]
  unambiguous arguments validation other h h' := by
    have hv := (@fromArguments_iff debug arguments validation).mpr h
    have ho := (@fromArguments_iff debug arguments other).mpr h'
    exact Except.ok.inj (hv.symm.trans ho)
  present_iff_not_absent listing body := by
    rw [check_iff, check_iff]
    simp [Meets]
  listings_only output sender body h := by
    rw [Ne, Ne, check_iff, check_iff]
    exact ⟨fun ⟨listing, hl, _⟩ => h listing hl, fun ⟨listing, hl, _⟩ => h listing hl⟩
  within := stays_parse debug

end PersonaMessage.OutputValidator
