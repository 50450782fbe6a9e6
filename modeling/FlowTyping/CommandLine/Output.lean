import FlowTyping.CommandLine
import FlowTyping.Form.Fixture
import FlowTyping.Summary

/-!
# The output of commands

A command's output depends on the files that it names. The fixture is read first, then the
configuration file that replaces the fixture's own configuration, and then the analysis runs.
-/

namespace FlowTyping

/-- Why a command has no output. -/
inductive CommandError where
  | unreadableFixture (file : String)
  | malformedFixture (file : String)
  | unreadableConfig (file : String)
  | malformedConfig (file : String)
  | run (e : RunError)

def CommandError.message : CommandError → String
  | unreadableFixture file => "reading fixture " ++ file
  | malformedFixture file => "in " ++ file
  | unreadableConfig file => "reading config " ++ file
  | malformedConfig file =>
    (if Config.isTomlFile file then "parsing TOML config " else "parsing JSON config ") ++ file
  | run e => e.message

def Fixture.load (read : String → Option String) (file : String) : Except CommandError Fixture :=
  match read file with
  | none => .error (.unreadableFixture file)
  | some text => match Fixture.ofText? text with
    | none => .error (.malformedFixture file)
    | some fixture => .ok fixture

def Config.load (read : String → Option String) (file : String) : Except CommandError Config :=
  match read file with
  | none => .error (.unreadableConfig file)
  | some text => match Config.ofFile? file text with
    | none => .error (.malformedConfig file)
    | some config => .ok config

namespace Command

def files : Command → List String
  | analyze fixture configFile _ _ => fixture :: configFile.toList
  | config _ => []

/-- The output of a command, given the texts of the files that can be read. -/
def output (read : String → Option String) (colours : Bool) :
    Command → Except CommandError String
  | analyze file configFile overrides json => do
    let fixture ← Fixture.load read file
    let base ← match configFile with
      | some file => Config.load read file
      | none => .ok fixture.config
    match fixture.runWith (overrides.apply base) with
    | .error e => .error (.run e)
    | .ok summary => return if json then summary.toJson.pretty else summary.render colours
  | config json => return if json then Config.default.toJson.pretty else Config.default.tomlText

end Command

end FlowTyping
