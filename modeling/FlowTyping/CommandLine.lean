import FlowTyping.Fixture

/-!
# Command lines

`analyze FIXTURE` analyses a fixture and `config` prints the default configuration. Words are
scanned from left to right, first before the command and then after it. A switch may be given once
on each side. What a word sets is checked only when the next known word arrives or the line ends,
so an unknown word is reported before a missing or repeated value in front of it.
-/

namespace FlowTyping

/-- What is wrong with a command line, or what it asks for in place of a command. -/
inductive UsageError where
  | helpRequested
  | versionRequested
  | nothingGiven
  | missingCommand
  | unknownCommand
  | missingFixture
  | unknownArgument
  /-- A value is missing or empty. -/
  | missingValue
  /-- A value comes with a switch that takes none. -/
  | unneededValue
  | repeatedSwitch
deriving DecidableEq

def UsageError.message : UsageError → String
  | helpRequested => "help is requested"
  | versionRequested => "the version is requested"
  | nothingGiven => "there is no command"
  | missingCommand => "there is no command"
  | unknownCommand => "the command is unknown"
  | missingFixture => "there is no fixture"
  | unknownArgument => "an argument is unknown"
  | missingValue => "a value is missing"
  | unneededValue => "a value is given to a switch that takes none"
  | repeatedSwitch => "a switch is given twice"

inductive Switch where
  | help
  | version
  | verbose
  | configFile
  | concurrentSemantics
  | infer
  | assumeSideEffectFree
  | json
deriving DecidableEq

namespace Switch

def longName : Switch → String
  | help => "help"
  | version => "version"
  | verbose => "verbose"
  | configFile => "config"
  | concurrentSemantics => "concurrent-semantics"
  | infer => "infer"
  | assumeSideEffectFree => "assume-side-effect-free"
  | json => "json"

def shortName? : Switch → Option Char
  | help => some 'h'
  | version => some 'V'
  | verbose => some 'v'
  | configFile => some 'c'
  | _ => none

end Switch

inductive CommandName where
  | analyze
  | config
deriving DecidableEq

def CommandName.ofWord? (word : String) : Option CommandName :=
  if word = "analyze" then some analyze
  else if word = "config" then some config
  else none

def helpWord : String := "help"

/-- The switches before the command, or after it. -/
def switchesAt : Option CommandName → List Switch
  | none => [.verbose, .help, .version]
  | some .analyze =>
    [.verbose, .help, .configFile, .concurrentSemantics, .infer, .assumeSideEffectFree, .json]
  | some .config => [.verbose, .help, .json]

inductive Command where
  | analyze (fixture : String) (configFile : Option String) (overrides : Overrides) (json : Bool)
  | config (json : Bool)

structure CommandLine where
  verbose : Bool
  command : Command

namespace CommandLine

/-- What the last known word has left to be checked. -/
inductive Pending where
  /-- A configuration file whose name has yet to come. -/
  | configFileName
  | configFile (name : String)
  | fixture
deriving DecidableEq

/-- A command line that has been scanned up to some word. -/
structure Scan where
  /-- Whether `verbose` was given before the command. -/
  verboseBefore : Bool
  command : Option CommandName
  /-- The switches given since the command, or since the start. -/
  given : List Switch
  configFile : Option String
  fixture : Option String
  pending : Option Pending
  /-- Whether the words that are left are no switches and no commands. -/
  onlyNames : Bool
deriving DecidableEq

namespace Scan

def start : Scan := ⟨false, none, [], none, none, none, false⟩

def enter (s : Scan) (c : CommandName) : Scan :=
  { s with verboseBefore := .verbose ∈ s.given, command := some c, given := [] }

/-- A configuration file may be named once, and its name is not empty. -/
def setConfigFile (s : Scan) (name : String) : Except UsageError Scan :=
  if s.configFile.isSome then .error .repeatedSwitch
  else if name.isEmpty then .error .missingValue
  else .ok { s with configFile := some name }

/-- Checks what was left to be checked. -/
def settle (s : Scan) : Except UsageError Scan :=
  let s' := { s with pending := none }
  match s.pending with
  | none => .ok s'
  | some .configFileName => .error .missingValue
  | some (.configFile name) => s'.setConfigFile name
  | some .fixture => if s.fixture = some "" then .error .missingValue else .ok s'

def turnOn (s : Scan) (switch : Switch) : Except UsageError Scan :=
  s.settle.bind fun s =>
    if switch = .help then .error .helpRequested
    else if switch = .version then .error .versionRequested
    else if switch ∈ s.given then .error .repeatedSwitch
    else .ok { s with given := switch :: s.given }

/-- Names a configuration file in the same word. -/
def attachConfigFile (s : Scan) (name : String) : Except UsageError Scan :=
  s.settle.bind fun s => s.setConfigFile name

/-- Leaves the name of a configuration file to the next word. -/
def awaitConfigFile (s : Scan) : Except UsageError Scan :=
  s.settle.map fun s => { s with pending := some .configFileName }

/-- Reads a word that starts with two dashes, without them. -/
def long (s : Scan) (word : List Char) : Except UsageError Scan :=
  let name := String.ofList (word.takeWhile (· ≠ '='))
  let value := match word.dropWhile (· ≠ '=') with
    | _ :: value => some (String.ofList value)
    | [] => none
  match (switchesAt s.command).find? fun switch => switch.longName = name with
  | none => .error .unknownArgument
  | some switch =>
    match value with
    | some value =>
      if switch = .configFile then s.attachConfigFile value else .error .unneededValue
    | none => if switch = .configFile then s.awaitConfigFile else s.turnOn switch

/-- Reads a word that starts with one dash, without it: a switch for each character, up to one
that takes the others as its value. -/
def cluster (s : Scan) : List Char → Except UsageError Scan
  | [] => .ok s
  | c :: rest =>
    match (switchesAt s.command).find? fun switch => switch.shortName? = some c with
    | none => .error .unknownArgument
    | some switch =>
      if switch = .configFile then
        match rest with
        | [] => s.awaitConfigFile
        | '=' :: name => s.attachConfigFile (String.ofList name)
        | name => s.attachConfigFile (String.ofList name)
      else (s.turnOn switch).bind fun s => s.cluster rest

def name (s : Scan) (word : String) : Except UsageError Scan :=
  match s.command with
  | none =>
    if (CommandName.ofWord? word).isSome || word = helpWord then .error .unknownArgument
    else .error .unknownCommand
  | some .config => .error .unknownArgument
  | some .analyze =>
    if s.fixture.isSome then .error .unknownArgument
    else s.settle.map fun s => { s with fixture := some word, pending := some .fixture }

def step (s : Scan) (word : String) : Except UsageError Scan :=
  if s.onlyNames then s.name word
  else match s.command, CommandName.ofWord? word with
    | none, some c => .ok (s.enter c)
    | _, _ =>
      match word.toList with
      | ['-', '-'] => .ok { s with onlyNames := true }
      | '-' :: '-' :: rest => s.long rest
      | '-' :: c :: rest => s.cluster (c :: rest)
      | _ =>
        if s.pending = some .configFileName then
          .ok { s with pending := some (.configFile word) }
        else s.name word

/-- What the words after a request for help lead to. -/
def helpOn : List String → UsageError
  | [] => .helpRequested
  | [word] =>
    if (CommandName.ofWord? word).isSome || word = helpWord then .helpRequested
    else .unknownCommand
  | _ :: _ :: _ => .unknownCommand

def words (s : Scan) : List String → Except UsageError Scan
  | [] => .ok s
  | word :: rest =>
    if s.command.isNone && !s.onlyNames && word = helpWord then .error (helpOn rest)
    else (s.step word).bind fun s => s.words rest

def finish (s : Scan) : Except UsageError CommandLine :=
  s.settle.bind fun s =>
    let verbose : Bool := s.verboseBefore || .verbose ∈ s.given
    match s.command with
    | none => .error (if s.given.isEmpty then .nothingGiven else .missingCommand)
    | some .config => .ok ⟨verbose, .config (.json ∈ s.given)⟩
    | some .analyze =>
      match s.fixture with
      | none => .error .missingFixture
      | some fixture =>
        let overrides : Overrides :=
          ⟨.concurrentSemantics ∈ s.given, .infer ∈ s.given, .assumeSideEffectFree ∈ s.given⟩
        .ok ⟨verbose, .analyze fixture s.configFile overrides (.json ∈ s.given)⟩

end Scan

/-- The command line that words make up, without the name of the program. -/
def parse (words : List String) : Except UsageError CommandLine :=
  (Scan.start.words words).bind Scan.finish

end CommandLine

end FlowTyping
