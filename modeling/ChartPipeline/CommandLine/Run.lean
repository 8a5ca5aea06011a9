import ChartPipeline.CommandLine.Arguments
import ChartPipeline.Dataset.Encode
import ChartPipeline.Settings.Load

/-!
# Running a command

A command loads its settings and its chart and prints the chart's datasets or its flow.  How files
are read is left open, so that a run is a function of the files.
-/

namespace ChartPipeline

/-- Why a run fails. -/
structure RunFailure where
  message : String
  /-- What exactly is wrong, where more is known. -/
  cause : Option String := none
deriving DecidableEq, Repr

/-- How a run ends. -/
inductive Outcome where
  /-- It prints a text. -/
  | printed (text : String)
  | failed (failure : RunFailure)
  | misused
deriving DecidableEq, Repr

/-- The number that a run ends with. -/
def Outcome.code : Outcome → Nat
  | printed _ => 0
  | failed _ => 1
  | misused => 2

/-- The name and the version of the program. -/
def versionText : String := "chartflow 0.1.0\n"

/-- The lines of help about the options of an action. -/
def optionLines : Action → List String
  | .compile => [
      "      --config <CONFIG>  Configuration file (YAML, JSON or TOML)",
      "      --no-optimize      Skip the hoisting passes",
      "      --compact          Print single-line JSON",
      "  -h, --help             Print help"]
  | .graph => [
      "      --config <CONFIG>  Configuration file (YAML, JSON or TOML)",
      "      --no-optimize      Skip the hoisting passes",
      "  -h, --help             Print help"]

/-- What an action is for. -/
def purpose : Action → String
  | .compile => "Compile a model and print the dataset records as JSON"
  | .graph => "Print the optimized dataflow tree of a model"

/-- The lines of help for the program, or for an action. -/
def helpLines : Option Action → List String
  | none => [
      "Compile resolved chart models into dataset pipelines",
      "",
      "Usage: chartflow <COMMAND>",
      "",
      "Commands:",
      "  compile  " ++ purpose .compile,
      "  graph    " ++ purpose .graph,
      "  help     Print this message or the help of the given subcommand(s)",
      "",
      "Options:",
      "  -h, --help     Print help",
      "  -V, --version  Print version"]
  | some action => [
      purpose action,
      "",
      "Usage: chartflow " ++ action.name ++ " [OPTIONS] <MODEL>",
      "",
      "Arguments:",
      "  <MODEL>  Model file (.yaml, .yml or .json)",
      "",
      "Options:"] ++ optionLines action

/-- Help for the program, or for an action. -/
def helpText (topic : Option Action) : String :=
  String.join ((helpLines topic).map fun line => line ++ "\n")

namespace Command

/-- The settings of a command: its own option goes before those that were loaded. -/
def adjust (command : Command) (settings : RunSettings) : RunSettings :=
  if command.optimize then settings
  else { settings with compiler := { settings.compiler with optimize := false } }

/-- The JSON text of a chart's datasets. -/
def compileText (command : Command) (settings : RunSettings) (chart : Chart) :
    Except RunFailure String :=
  match compileChart settings.compiler chart with
  | .error e => .error ⟨"Failed to compile " ++ command.chart, some e.message⟩
  | .ok data =>
    let json := data.toJson
    .ok ((if command.compact || !settings.pretty then json.compact else json.pretty) ++ "\n")

/-- The text of a chart's flow. -/
def graphText (command : Command) (settings : RunSettings) (chart : Chart) :
    Except RunFailure String :=
  match (Compiler.buildFlow { options := settings.compiler } chart).1 with
  | .error e => .error ⟨"Failed to build dataflow for " ++ command.chart, some e.message⟩
  | .ok flow =>
    match settings.compiler.optimizeFlow flow with
    | (.error e, _) => .error ⟨e.message, none⟩
    | (.ok (), flow) => .ok flow.render

/-- What a command prints for a chart. -/
def text (command : Command) (settings : RunSettings) (chart : Chart) : Except RunFailure String :=
  match command.action with
  | .compile => command.compileText settings chart
  | .graph => command.graphText settings chart

/-- What a command prints, given the settings that were loaded and the bytes of its file. -/
def textOfFile (command : Command) (settings : RunSettings) (bytes : Option ByteArray) :
    Except RunFailure String :=
  match loadChart command.chart bytes with
  | .error fault => .error ⟨"Failed to load model " ++ command.chart, fault.message?⟩
  | .ok chart => command.text (command.adjust settings) chart

/-- Runs a command. -/
def run [Monad m] (read : FileReader m) (environment : Variables) (command : Command) :
    m Outcome := do
  match ← loadSettings read command.settings environment with
  | .error fault => pure (.failed ⟨fault.message, none⟩)
  | .ok settings =>
    match command.textOfFile settings (← read command.chart) with
    | .error failure => pure (.failed failure)
    | .ok text => pure (.printed text)

end Command

/-- The path of the file that may set more variables. -/
def envFilePath : String := ".env"

/-- The environment with the variables of the file that may set more. -/
def fullEnvironment [Monad m] (read : FileReader m) (environment : Variables) : m Variables := do
  match (← read envFilePath).bind String.fromUTF8? with
  | some text => pure (environment.withFile text)
  | none => pure environment

/-- Runs the program with arguments. -/
def runProgram [Monad m] (read : FileReader m) (environment : Variables) (args : List String) :
    m Outcome := do
  match readArguments args with
  | .misuse => pure .misused
  | .version => pure (.printed versionText)
  | .help topic => pure (.printed (helpText topic))
  | .run command => command.run read (← fullEnvironment read environment)

end ChartPipeline
